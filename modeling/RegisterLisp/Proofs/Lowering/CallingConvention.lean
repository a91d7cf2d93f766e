import RegisterLisp.Proofs.Lowering.Needs

/-!
# The registers that code names and changes

Code keeps to the layout of the registers.  It names r3, the registers of arguments and temporaries,
and changes only temporaries; the registers of arguments are changed right before a call, and what a
call may change is saved around it.

The lines of a call belong together: a move to the register of an argument is in order because of
the lines around it.  So `Conventional` takes code apart into calls (`callLines`) and lines that
stand by themselves, and what is said of single lines (`KeepsConvention`) is read off that.
`Conforms` is the metered property of steps that add such code.  It is about sinks without a limit:
with a limit the lines of a call can be cut off.
-/

namespace RegisterLisp

/-! ## Registers of a line -/

/-- The register of results, the registers of arguments, and temporaries. -/
def Reg.IsNamed (r : Reg) : Prop :=
  (3 ≤ r.index.val ∧ r.index.val < 12) ∨ 32 ≤ r.index.val

def Reg.IsArgument (r : Reg) : Prop :=
  4 ≤ r.index.val ∧ r.index.val < 12

namespace Line

def operands (line : Line) : List Operand :=
  match line.statement with
  | .instruction _ operands => operands
  | _ => []

def Names (line : Line) (r : Reg) : Prop :=
  .register r ∈ line.operands ∨ ∃ set, .registers set ∈ line.operands ∧ r ∈ set

/-- The line sets the register to something: it is a load, a move or an operator with the register
as its target. -/
def Changes (line : Line) (r : Reg) : Prop :=
  ∃ opcode rest, line.statement = .instruction opcode (.register r :: rest) ∧
    opcode.changesFirst = true

/-- A comment, a label, or an instruction that is not part of a call. -/
def IsOrdinary (line : Line) : Prop :=
  match line.statement with
  | .instruction opcode operands => Lowering.PlainUse Reg.IsNamed opcode operands
  | .raw _ => False
  | _ => True

/-- A comment is no part of a call. -/
theorem isOrdinary_of_isComment {line : Line} (h : line.isComment = true) : line.IsOrdinary := by
  rcases line with ⟨indent, statement⟩
  cases statement with
  | instruction opcode operands => cases h
  | raw text => cases h
  | _ => trivial

end Line

namespace Lowering

open Steps

/-! ## The lines of a call -/

def transferLines (opcode : Opcode) (saved : RegSet) (indent : Nat) : List Line :=
  if saved.isEmpty then [] else [⟨indent, .instruction opcode [.registers saved]⟩]

def moveLines (regs temps : List Reg) (indent : Nat) : List Line :=
  (regs.zip temps).map fun (r, temp) =>
    ⟨indent, .instruction .move [.register r, .register temp]⟩

def passLines (target : Operand) (temps : List Reg) (indent : Nat) : List Line :=
  moveLines (RegSet.arguments temps.length).toList temps indent ++
    [⟨indent, .instruction .call [target]⟩]

def callLines (saved : RegSet) (target : Operand) (temps : List Reg) (indent : Nat) : List Line :=
  transferLines .push saved indent ++
    (passLines target temps indent ++ transferLines .pop saved indent)

/-- What stands in the lines of a call. -/
theorem mem_callLines {saved : RegSet} {target : Operand} {temps : List Reg} {indent : Nat}
    {line : Line} (h : line ∈ callLines saved target temps indent) :
    (∃ opcode, (opcode = .push ∨ opcode = .pop) ∧
        line.statement = .instruction opcode [.registers saved]) ∨
      line.statement = .instruction .call [target] ∨
      ∃ r temp, r ∈ RegSet.arguments temps.length ∧ temp ∈ temps ∧
        line.statement = .instruction .move [.register r, .register temp] := by
  have htransfer : ∀ {opcode}, line ∈ transferLines opcode saved indent →
      line.statement = .instruction opcode [.registers saved] := by
    intro opcode hline
    rw [transferLines] at hline
    split at hline
    · cases hline
    · rw [List.mem_singleton.1 hline]
  simp only [callLines, passLines, moveLines, List.mem_append, List.mem_map, List.mem_singleton] at h
  rcases h with hpush | (⟨⟨r, temp⟩, hpair, rfl⟩ | rfl) | hpop
  · exact Or.inl ⟨.push, Or.inl rfl, htransfer hpush⟩
  · obtain ⟨hr, htemp⟩ := List.of_mem_zip hpair
    exact Or.inr (Or.inr ⟨r, temp, RegSet.mem_toList.1 hr, htemp, rfl⟩)
  · exact Or.inr (Or.inl rfl)
  · exact Or.inl ⟨.pop, Or.inr rfl, htransfer hpop⟩

/-! ## Code that keeps to the convention -/

/-- Code made of lines that stand by themselves and of calls, around each of which all that is kept
is saved. -/
inductive Conventional (kept : RegSet) : List Line → Prop
  | nil : Conventional kept []
  | line {line : Line} {code : List Line} (hline : line.IsOrdinary) (hcode : Conventional kept code) :
      Conventional kept (line :: code)
  | call {saved : RegSet} {target : Operand} {temps : List Reg} {indent : Nat} {code : List Line}
      (huse : CallUse kept saved target temps) (hcode : Conventional kept code) :
      Conventional kept (callLines saved target temps indent ++ code)

/-- What a line of code names and changes. -/
structure LineKeeps (line : Line) : Prop where
  /-- The line is a comment, a label or an instruction of the machine. -/
  known : (∀ text, line.statement ≠ .raw text) ∧
    ∀ name operands, line.statement ≠ .instruction (.named name) operands
  names : ∀ r, line.Names r → r.IsNamed
  /-- In particular, r3 is changed by calls only. -/
  changes : ∀ r, line.Changes r → r.IsArgument ∨ 32 ≤ r.index.val
  masks : ∀ saved, .registers saved ∈ line.operands → ∀ r ∈ saved, r ∈ RegSet.callerSaved

/-- What can be said of code, line by line. -/
structure KeepsConvention (kept : RegSet) (code : List Line) : Prop where
  lines : ∀ line ∈ code, LineKeeps line
  /-- The registers of arguments are changed by moves in the lines of a call, which saves around it
  what is kept. -/
  arguments : ∀ before line after, code = before ++ line :: after →
    ∀ r, line.Changes r → r.IsArgument →
    ∃ earlier first second later saved target temps indent,
      before = earlier ++ first ∧ after = second ++ later ∧
      first ++ line :: second = callLines saved target temps indent ∧
      CallUse kept saved target temps

/-- An instruction keeps to the convention by the operands it has. -/
theorem LineKeeps.of_instruction {line : Line} {opcode : Opcode} {operands : List Operand}
    (hline : line.statement = .instruction opcode operands)
    (hknown : ∀ name, opcode ≠ .named name)
    (hnames : ∀ r, .register r ∈ operands → r.IsNamed)
    (hchanges : opcode.changesFirst = true → ∀ r rest, operands = .register r :: rest →
      r.IsArgument ∨ 32 ≤ r.index.val)
    (hmasks : ∀ saved, .registers saved ∈ operands → ∀ r ∈ saved, r ∈ RegSet.callerSaved) :
    LineKeeps line := by
  have hoperands : line.operands = operands := by rw [Line.operands, hline]
  refine ⟨⟨?_, ?_⟩, ?_, ?_, ?_⟩
  · intro text h
    rw [hline] at h
    cases h
  · intro name operands' h
    rw [hline] at h
    cases h
    exact hknown name rfl
  · intro r hr
    rw [Line.Names, hoperands] at hr
    rcases hr with hr | ⟨saved, hsaved, hr⟩
    · exact hnames r hr
    · -- A member of a mask is a register of an argument or a temporary.
      have hcaller := RegSet.mem_callerSaved.1 (hmasks saved hsaved r hr)
      rw [Reg.IsNamed]
      omega
  · rintro r ⟨opcode', rest, h, hfirst⟩
    rw [hline] at h
    cases h
    exact hchanges hfirst r rest rfl
  · rw [hoperands]
    exact hmasks

/-- Lines that stand by themselves change only temporaries. -/
theorem temporary_of_changes {line : Line} {r : Reg} (h : line.IsOrdinary) (hr : line.Changes r) :
    32 ≤ r.index.val := by
  obtain ⟨opcode, rest, hline, hfirst⟩ := hr
  rw [Line.IsOrdinary, hline] at h
  exact h.changes hfirst r rest rfl

/-- A line that stands by itself keeps to the convention. -/
theorem LineKeeps.of_isOrdinary {line : Line} (h : line.IsOrdinary) : LineKeeps line := by
  rcases line with ⟨indent, statement⟩
  have hchanges : ∀ r, Line.Changes ⟨indent, statement⟩ r → r.IsArgument ∨ 32 ≤ r.index.val :=
    fun r hr => Or.inr (temporary_of_changes h hr)
  cases statement with
  | instruction opcode operands =>
      refine .of_instruction rfl ?_ h.names ?_ fun saved hsaved => absurd hsaved (h.single saved)
      · rintro name rfl
        cases h.outside
      · exact fun hfirst r rest hoperands => Or.inr (h.changes hfirst r rest hoperands)
  | raw text => exact h.elim
  | _ => exact ⟨⟨by simp, by simp⟩, by simp [Line.Names, Line.operands], hchanges,
      by simp [Line.operands]⟩

/-- So does every line of a call. -/
theorem LineKeeps.of_mem_callLines {kept saved : RegSet} {target : Operand} {temps : List Reg}
    {indent : Nat} {line : Line} (huse : CallUse kept saved target temps)
    (h : line ∈ callLines saved target temps indent) : LineKeeps line := by
  rcases mem_callLines h with ⟨opcode, hopcode, hline⟩ | hline | ⟨r, temp, hr, htemp, hline⟩
  · -- A line that saves or gets back what the call may change.
    refine .of_instruction hline ?_ (by simp) (by simp) ?_
    · rcases hopcode with rfl | rfl <;> simp
    · intro set hset
      cases List.mem_singleton.1 hset
      exact huse.savesOnly
  · -- The call itself, of a label or from a temporary.
    rcases huse.calls with ⟨l, rfl⟩ | ⟨r, rfl, hr⟩
    · exact .of_instruction hline (by simp) (by simp) (by simp) (by simp)
    · refine .of_instruction hline (by simp) ?_ (by simp [Opcode.changesFirst]) (by simp)
      intro q hq
      cases List.mem_singleton.1 hq
      exact Or.inr hr
  · -- A move from a temporary to the register of an argument, of which there are eight.
    have hargument : r.IsArgument := by
      have hindex := RegSet.mem_arguments.1 hr
      have hcount := huse.count
      rw [Reg.IsArgument]
      omega
    have htemporary := huse.passes temp htemp
    refine .of_instruction hline (by simp) ?_ ?_ (by simp)
    · intro q hq
      simp only [List.mem_cons, Operand.register.injEq, List.not_mem_nil, or_false] at hq
      rcases hq with rfl | rfl
      · exact Or.inl ⟨Nat.le_of_succ_le hargument.1, hargument.2⟩
      · exact Or.inr htemporary
    · rintro _ q rest h
      cases h
      exact Or.inl hargument

namespace Conventional

variable {kept : RegSet} {code code' : List Line} {line : Line}

/-- Conventional code can be put together. -/
theorem append (h : Conventional kept code) (h' : Conventional kept code') :
    Conventional kept (code ++ code') := by
  induction h with
  | nil => exact h'
  | line hline _ ih => exact .line hline ih
  | call huse _ ih =>
      rw [List.append_assoc]
      exact .call huse ih

theorem of_ordinary (h : ∀ line ∈ code, line.IsOrdinary) : Conventional kept code := by
  induction code with
  | nil => exact .nil
  | cons line code ih =>
      obtain ⟨hline, hcode⟩ := List.forall_mem_cons.1 h
      exact .line hline (ih hcode)

/-- Every line stands by itself or in a call. -/
theorem mem_cases (h : Conventional kept code) (hline : line ∈ code) :
    line.IsOrdinary ∨ ∃ saved target temps indent, CallUse kept saved target temps ∧
      line ∈ callLines saved target temps indent := by
  induction h with
  | nil => cases hline
  | line hordinary _ ih =>
      rcases List.mem_cons.1 hline with rfl | hmem
      · exact Or.inl hordinary
      · exact ih hmem
  | call huse _ ih =>
      rcases List.mem_append.1 hline with hmem | hmem
      · exact Or.inr ⟨_, _, _, _, huse, hmem⟩
      · exact ih hmem

/-- A register of an argument is changed in the lines of a call. -/
theorem arguments (h : Conventional kept code) {before after : List Line}
    (hcode : code = before ++ line :: after) {r : Reg} (hchanges : line.Changes r)
    (hr : r.IsArgument) :
    ∃ earlier first second later saved target temps indent,
      before = earlier ++ first ∧ after = second ++ later ∧
      first ++ line :: second = callLines saved target temps indent ∧
      CallUse kept saved target temps := by
  induction h generalizing before with
  | nil => simp at hcode
  | @line line' code hline _ ih =>
      cases before with
      | nil =>
          -- A line that stands by itself changes no register of an argument.
          cases hcode
          have htemporary := temporary_of_changes hline hchanges
          exact absurd hr.2 (by omega)
      | cons line'' before =>
          cases hcode
          obtain ⟨earlier, first, second, later, saved, target, temps, indent, rfl, rest⟩ := ih rfl
          exact ⟨line' :: earlier, first, second, later, saved, target, temps, indent, rfl, rest⟩
  | @call saved target temps indent code huse _ ih =>
      rcases List.append_eq_append_iff.1 hcode with ⟨gap, rfl, hrest⟩ | ⟨gap, hblock, hgap⟩
      · -- The line comes after the call.
        obtain ⟨earlier, first, second, later, saved', target', temps', indent', rfl, rest⟩ := ih hrest
        exact ⟨_ ++ earlier, first, second, later, saved', target', temps', indent',
          (List.append_assoc _ _ _).symm, rest⟩
      · cases gap with
        | nil =>
            -- The line comes right after the call.
            rw [List.append_nil] at hblock
            have hrest : code = [] ++ line :: after := hgap.symm
            obtain ⟨earlier, first, second, later, saved', target', temps', indent', hnil, rest⟩ :=
              ih hrest
            obtain ⟨rfl, rfl⟩ := List.append_eq_nil_iff.1 hnil.symm
            exact ⟨before, [], second, later, saved', target', temps', indent',
              (List.append_nil _).symm, rest⟩
        | cons _ second =>
            -- The line is one of the call.
            cases hgap
            exact ⟨[], before, second, code, saved, target, temps, indent, rfl, rfl, hblock.symm, huse⟩

/-- Conventional code keeps to the convention line by line, and around every call. -/
theorem keeps (h : Conventional kept code) : KeepsConvention kept code where
  lines line hline := by
    rcases h.mem_cases hline with hordinary | ⟨saved, target, temps, indent, huse, hmem⟩
    · exact .of_isOrdinary hordinary
    · exact .of_mem_callLines huse hmem
  arguments _ _ _ hcode _ hchanges hr := h.arguments hcode hchanges hr

end Conventional
end Lowering

/-! ## Sinks without a limit -/

namespace Listing

open Steps

/-- Without a limit the step succeeds. -/
def Unhindered {α : Type} (step : WriteM α) : Prop :=
  ∀ l, l.room = none → ∃ a l', step l = (.ok a, l') ∧ l'.room = none

namespace Unhindered

variable {α β : Type}

/-- The sink takes everything if it has no limit. -/
theorem write (statement : Statement) : Unhindered (write statement) := by
  intro l hl
  refine ⟨(), { l with lines := ⟨l.indent, statement⟩ :: l.lines }, ?_, hl⟩
  rw [write_apply, writeLine_apply, hl]

theorem bind {x : WriteM α} {f : α → WriteM β} (hx : Unhindered x) (hf : ∀ a, Unhindered (f a)) :
    Unhindered (x >>= f) := by
  intro l hl
  obtain ⟨a, l₁, hrun, hl₁⟩ := hx l hl
  rw [bind_apply, hrun]
  exact hf a l₁ hl₁

theorem forM {γ : Type} {f : γ → WriteM PUnit} (hf : ∀ x, Unhindered (f x)) (xs : List γ) :
    Unhindered (xs.forM f) := by
  induction xs with
  | nil => exact fun l hl => ⟨⟨⟩, l, rfl, hl⟩
  | cons x xs ih => exact bind (hf x) fun _ => ih

theorem indented {step : WriteM α} (h : Unhindered step) : Unhindered (indented step) := by
  intro l hl
  obtain ⟨a, l', hrun, hl'⟩ := h l.increaseIndent hl
  refine ⟨a, l'.decreaseIndent, ?_, hl'⟩
  rw [Listing.indented, hrun]

/-- A comment is written in full. -/
theorem comment (text : String) : Unhindered (comment text) := by
  unfold Listing.comment
  split
  · refine bind (write _) fun _ => bind (indented ?_) fun _ => write _
    exact forM (fun _ => write _) _
  · exact write _

end Unhindered
end Listing

namespace Lowering

open Steps

/-! ## Steps that write given lines -/

variable {α β : Type}

/-- If the step succeeds, it has added these lines; without a limit it does succeed. -/
structure AddsLines (code : Nat → List Line) (x : LowerM Unit) : Prop where
  adds : ∀ {s s'}, x s = (.ok (), s') →
    s'.listing.lines = (code s.listing.indent).reverse ++ s.listing.lines ∧
      s'.listing.indent = s.listing.indent
  succeeds : ∀ {s}, s.listing.room = none →
    ∃ s', x s = (.ok (), s') ∧ s'.listing.room = none ∧ Restores s s'

namespace AddsLines

variable {code code' : Nat → List Line} {x y : LowerM Unit}

theorem pure : AddsLines (fun _ => []) (pure () : LowerM Unit) where
  adds := by
    rintro s _ ⟨⟩
    exact ⟨rfl, rfl⟩
  succeeds {s} hs := ⟨s, rfl, hs, .refl s⟩

theorem emit (opcode : Opcode) (operands : List Operand) :
    AddsLines (fun indent => [⟨indent, .instruction opcode operands⟩]) (emit opcode operands) where
  adds h := ⟨(wrote_of_emit h).lines, (wrote_of_emit h).indent⟩
  succeeds {s} hs := by
    obtain ⟨⟨⟩, l, hl, hroom⟩ := Listing.Unhindered.write (.instruction opcode operands) s.listing hs
    refine ⟨{ s with listing := l }, ?_, hroom, ⟨rfl, rfl, rfl⟩⟩
    rw [Lowering.emit, writing, hl]

/-- Steps one after the other add their lines one after the other. -/
theorem andThen (hx : AddsLines code x) (hy : AddsLines code' y) :
    AddsLines (fun indent => code indent ++ code' indent) (x >>= fun _ => y) where
  adds {s s'} h := by
    obtain ⟨_, s₁, h₁, h₂⟩ := bind_eq_ok.1 h
    obtain ⟨hlines, hindent⟩ := hx.adds h₁
    obtain ⟨hlines', hindent'⟩ := hy.adds h₂
    refine ⟨?_, hindent'.trans hindent⟩
    rw [hlines', hlines, hindent, List.reverse_append, List.append_assoc]
  succeeds {s} hs := by
    obtain ⟨s₁, h₁, hroom₁, hrestores₁⟩ := hx.succeeds hs
    obtain ⟨s₂, h₂, hroom₂, hrestores₂⟩ := hy.succeeds hroom₁
    exact ⟨s₂, bind_eq_ok.2 ⟨(), s₁, h₁, h₂⟩, hroom₂, hrestores₁.trans hrestores₂⟩

theorem transfer (opcode : Opcode) (saved : RegSet) :
    AddsLines (transferLines opcode saved) (transfer opcode saved) := by
  unfold Lowering.transfer transferLines
  split
  · exact pure
  · exact emit _ _

/-- Moving arguments into place adds one line for each of them. -/
theorem placeArguments (regs temps : List Reg) :
    AddsLines (moveLines regs temps) (placeArguments regs temps) := by
  induction regs generalizing temps with
  | nil => exact pure
  | cons r regs ih =>
      cases temps with
      | nil => exact pure
      | cons temp temps => exact andThen (emit _ _) (ih temps)

/-- The registers of arguments are not written down, so the lines are those of the body. -/
theorem withArguments {n : Nat} {body : List Reg → LowerM Unit} (hn : n ≤ 8)
    (h : AddsLines code (body (RegSet.arguments n).toList)) : AddsLines code (withArguments n body) where
  adds {s s'} hrun := by
    obtain ⟨s₁, s₂, haround, hbody, -⟩ := withArguments_eq_ok hrun
    rw [haround.listing', ← haround.listing]
    exact h.adds hbody
  succeeds {s} hs := by
    have hs₁ : (reserving n s).listing.room = none := hs
    obtain ⟨s₂, hbody, hroom, hrestores⟩ := h.succeeds hs₁
    refine ⟨{ s₂ with registers := s₂.registers.restore }, ?_, hroom, hrestores.giveBack rfl rfl⟩
    rw [withArguments_apply, if_pos hn, hbody]

end AddsLines

/-- The lines of a call, wherever it succeeds; without a limit it does. -/
theorem invoke_addsLines (saved : RegSet) (target : Operand) {temps : List Reg}
    (hcount : temps.length ≤ 8) :
    ∃ x, AddsLines (callLines saved target temps) x ∧
      invoke saved target temps temps.length = x >>= fun _ => return .register Reg.result := by
  have hpass : AddsLines (passLines target temps) (withArguments temps.length fun regs =>
      placeArguments regs temps >>= fun _ => emit .call [target]) :=
    .withArguments hcount (.andThen (.placeArguments _ temps) (.emit .call [target]))
  refine ⟨_, .andThen (.transfer .push saved) (.andThen hpass (.transfer .pop saved)), ?_⟩
  rw [invoke_eq]
  simp only [bind_assoc]

/-- At the end stand the lines of a call with so many arguments.  Around it are saved all registers of
`live` that it may change, and no others. -/
def EndsWithCall (live : RegSet) (count : Nat) (l : Listing) : Prop :=
  ∃ earlier target temps indent,
    l.lines.reverse = earlier ++
      callLines (live.inter RegSet.callerSaved) target temps indent ∧
    temps.length = count ∧ CallUse live (live.inter RegSet.callerSaved) target temps

/-- The code of a call saves around it what was live when it was begun. -/
theorem endsWithCall_of_call {callee : LowerM Value} {args : List (LowerM Source)}
    {s s' : Lowering} {v : Value} (h : call callee args s = (.ok v, s')) :
    EndsWithCall s.registers.live args.length s'.listing := by
  rw [call_eq] at h
  split at h
  · cases h
  · rename_i hcount
    obtain ⟨_, _, ⟨⟩, h⟩ := bind_eq_ok.1 h
    obtain ⟨v', s₁, -, h⟩ := bind_eq_ok.1 h
    -- Once the callee has its place, a label and a register are called in the same way.
    have hpass : ∀ {target : Operand} {temps : List Reg} {s₂ s₃ : Lowering},
        temps.length = args.length → (∀ r ∈ temps, 32 ≤ r.index.val) →
        ((∃ l, target = .label l) ∨ ∃ r, target = .register r ∧ 32 ≤ r.index.val) →
        (passArguments args temps >>= fun _ => invoke (s.registers.live.inter RegSet.callerSaved)
          target temps args.length) s₂ = (.ok v, s₃) → s'.listing = s₃.listing →
        EndsWithCall s.registers.live args.length s'.listing := by
      intro target temps s₂ s₃ hlength htemps htarget hrun hlisting
      obtain ⟨_, s₄, -, hinvoke⟩ := bind_eq_ok.1 hrun
      have hle : temps.length ≤ 8 := hlength ▸ Nat.le_of_not_lt hcount
      obtain ⟨x, hadds, hx⟩ := invoke_addsLines _ target hle
      rw [← hlength, hx] at hinvoke
      obtain ⟨_, s₅, hpassing, ⟨⟩⟩ := bind_eq_ok.1 hinvoke
      refine ⟨s₄.listing.lines.reverse, target, temps, s₄.listing.indent, ?_, hlength, ?_⟩
      · rw [hlisting, (hadds.adds hpassing).1, List.reverse_append, List.reverse_reverse]
      · exact ⟨fun r hr => (RegSet.mem_inter.1 hr).2, fun r hr hcaller =>
          RegSet.mem_inter.2 ⟨hr, hcaller⟩, htarget, htemps, hle⟩
    cases v' with
    | label l =>
        rw [callValue] at h
        obtain ⟨temps, s₂, s₃, haround, hbody, -, hlength, -, htemps⟩ := withTemporaries_eq_ok h
        exact hpass hlength (fun r hr => (htemps r hr).2) (Or.inl ⟨l, rfl⟩) hbody haround.listing'
    | register r =>
        rw [callValue] at h
        obtain ⟨temps, s₂, s₃, haround, hbody, -, hlength, -, htemps⟩ := withTemporaries_eq_ok h
        cases temps with
        | nil => cases hbody
        | cons target temps =>
            obtain ⟨_, s₄, -, hbody⟩ := bind_eq_ok.1 hbody
            obtain ⟨htarget, htemps⟩ := List.forall_mem_cons.1 htemps
            exact hpass (Nat.succ.inj hlength) (fun r hr => (htemps r hr).2)
              (Or.inr ⟨target, rfl, htarget.2⟩) hbody haround.listing'

/-! ## Steps that keep to the convention -/

variable {kept : RegSet} {sees : Symbol → Bool} {n m : Nat} {Q : α → Prop} {s : Lowering}

/-- What becomes of a step that keeps to the convention. -/
structure Conforming (kept : RegSet) (Q : α → Prop) (s : Lowering)
    (out : Except LowerError α × Lowering) : Prop where
  restores : Restores s out.2
  room : out.2.listing.room = none
  code : ∃ code, out.2.listing.lines = code.reverse ++ s.listing.lines ∧ Conventional kept code
  value : ∀ a, out.1 = .ok a → Q a

/-- A step that keeps to the convention where the registers of `kept` are live, however many
temporaries it needs. -/
def Conforms (kept : RegSet) {α : Type} (sees : Symbol → Bool) (_need : Nat) (Q : α → Prop)
    (x : LowerM α) : Prop :=
  ∀ s, s.listing.room = none → (∀ r ∈ kept, r ∈ s.registers.live) →
    s.scopes.Shows Reg.IsNamed sees → Conforming kept Q s (x s)

/-- In a function its parameters stand for registers of arguments. -/
theorem shows_entered {params : List Symbol} (hn : params.length ≤ 8) :
    (entered params s).scopes.Shows Reg.IsNamed params.contains := by
  refine Scopes.shows_bindAll (RegSet.length_toList_arguments hn) fun r hr => ?_
  have hindex := RegSet.mem_arguments.1 (RegSet.mem_toList.1 hr)
  exact Or.inl ⟨by omega, by omega⟩

namespace Conforming

/-- Nothing is written. -/
theorem of_silent {out : Except LowerError α × Lowering} (hrestores : Restores s out.2)
    (hroom : s.listing.room = none) (hlisting : out.2.listing.room = s.listing.room ∧
      out.2.listing.lines = s.listing.lines)
    (hvalue : ∀ a, out.1 = .ok a → Q a) : Conforming kept Q s out :=
  ⟨hrestores, hlisting.1.trans hroom, ⟨[], hlisting.2, .nil⟩, hvalue⟩

/-- A step conforms if its first half does, and its second half from where that ends. -/
theorem bind {R : β → Prop} {x : LowerM α} {f : α → LowerM β} (hx : Conforming kept Q s (x s))
    (hf : ∀ a s', Q a → s'.listing.room = none → Restores s s' → Conforming kept R s' (f a s')) :
    Conforming kept R s ((x >>= f) s) := by
  rw [bind_apply]
  rcases hrun : x s with ⟨cause | a, s'⟩
  · -- What was written before a failure stays.
    rw [hrun] at hx
    refine { hx with value := ?_ }
    rintro _ ⟨⟩
  · rw [hrun] at hx
    have hout := hf a s' (hx.value a rfl) hx.room hx.restores
    obtain ⟨code, hlines, hcode⟩ := hx.code
    obtain ⟨code', hlines', hcode'⟩ := hout.code
    refine ⟨hx.restores.trans hout.restores, hout.room, ⟨code ++ code', ?_, hcode.append hcode'⟩,
      hout.value⟩
    rw [hlines', hlines, List.reverse_append, List.append_assoc]

/-- Lines that stand by themselves. -/
theorem writing {step : Listing.WriteM Unit} (hroom : s.listing.room = none)
    (hstep : Listing.Unhindered step) (hadds : Listing.Adds Line.IsOrdinary step) :
    Conforming kept (fun _ => True) s (writing step s) := by
  obtain ⟨a, l, hrun, hl⟩ := hstep s.listing hroom
  obtain ⟨-, code, hlines, hcode⟩ := hadds s.listing a l hrun
  rw [Lowering.writing, hrun]
  exact ⟨⟨rfl, rfl, rfl⟩, hl, ⟨code, hlines, .of_ordinary hcode⟩, fun _ _ => trivial⟩

theorem tell (hroom : s.listing.room = none) (r : Record) :
    Conforming kept (fun _ => True) s (tell r s) :=
  .of_silent ⟨rfl, rfl, rfl⟩ hroom ⟨rfl, rfl⟩ fun _ _ => trivial

/-- Entering a function changes scopes and registers, but adds no lines of its own. -/
theorem inFunction {params : List Symbol} {body : LowerM α} (hn : params.length ≤ 8)
    (hbody : Conforming kept Q (entered params s) (body (entered params s))) :
    Conforming kept Q s (insideFunction (withArguments params.length fun args =>
      bindParams params args >>= fun _ => body) s) := by
  rw [inFunction_apply, if_pos hn]
  exact ⟨hbody.restores.leave, hbody.room, hbody.code, hbody.value⟩

end Conforming

namespace Conforms

theorem pure {a : α} (ha : Q a) : Conforms kept sees n Q (pure a : LowerM α) := by
  intro s hroom _ _
  refine .of_silent (.refl s) hroom ⟨rfl, rfl⟩ ?_
  rintro _ ⟨⟩
  exact ha

theorem imp {R : α → Prop} {x : LowerM α} (hx : Conforms kept sees n Q x)
    (himp : ∀ a, Q a → R a) : Conforms kept sees n R x := by
  intro s hroom hkept hs
  have hout := hx s hroom hkept hs
  exact { hout with value := fun a ha => himp a (hout.value a ha) }

/-- Conforming steps follow each other, with any bound on what they need. -/
theorem bind {R : β → Prop} {x : LowerM α} {f : α → LowerM β} {k : Nat}
    (hx : Conforms kept sees n Q x) (hf : ∀ a, Q a → Conforms kept sees m R (f a)) :
    Conforms kept sees k R (x >>= f) := by
  intro s hroom hkept hs
  refine (hx s hroom hkept hs).bind fun a s' ha hroom' hrestores => ?_
  have hkept' : ∀ r ∈ kept, r ∈ s'.registers.live := by
    rw [hrestores.registers]
    exact hkept
  exact hf a ha s' hroom' hkept' (hrestores.shows hs)

theorem fail {cause : LowerError} : Conforms kept sees n Q (throw cause : LowerM α) := by
  intro s hroom _ _
  refine .of_silent (.refl s) hroom ⟨rfl, rfl⟩ ?_
  rintro _ ⟨⟩

/-- A symbol stands for a register that may be named, or for a label. -/
theorem lookup (name : Symbol) :
    Conforms kept sees 0 (Value.Fits Reg.IsNamed (sees name)) (lookup name) := by
  intro s hroom hkept hs
  rw [lookup_apply]
  cases hvalue : s.scopes.lookup name false with
  | none => exact fail (n := 0) s hroom hkept hs
  | some v => exact pure (n := 0) (hs.fits_of_lookup hvalue) s hroom hkept hs

theorem comment (text : String) : Conforms kept sees n (fun _ => True) (comment text) := by
  intro s hroom _ _
  refine .writing hroom (.comment text) fun l a l' h => ?_
  obtain ⟨hnext, code, hlines, hcode⟩ := Listing.Adds.comment text l a l' h
  exact ⟨hnext, code, hlines, fun line hline => Line.isOrdinary_of_isComment (hcode line hline)⟩

/-- What is reserved around a step is a temporary, and so may be named. -/
theorem withTemporaries {body : List Reg → LowerM α}
    (hbody : ∀ regs, regs.length = n → (∀ r ∈ regs, 32 ≤ r.index.val) →
      Conforms kept sees m Q (body regs)) :
    Conforms kept sees (n + m) Q (withRegisters (.temporaries n) body) := by
  intro s hroom hkept hs
  rcases hreserve : s.registers.save.reserve (.temporaries n) with ⟨cause | regs, registers⟩
  · rw [withRegisters_of_error hreserve]
    refine .of_silent (.refl s) hroom ⟨rfl, rfl⟩ ?_
    rintro _ ⟨⟩
  · rw [withRegisters_of_ok hreserve rfl]
    obtain ⟨hhands, hlength, -, hregs⟩ := RegFile.reserve_temporaries hreserve
    -- With temporaries more is live, so what is kept still is.
    have hkept' : ∀ r ∈ kept, r ∈ registers.live :=
      fun r hr => (hhands.mem_live r).2 (Or.inr (hkept r hr))
    have hout := hbody regs hlength (fun r hr => (hregs r hr).2)
      { s with registers, log := scopeRecord registers.depth regs :: s.log } hroom hkept' hs
    exact ⟨hout.restores.giveBack rfl hhands.restore_eq, hout.room, hout.code, hout.value⟩

/-- The lines of a call are written as a whole, which is what the convention asks for. -/
theorem invoke {saved : RegSet} {target : Operand} {temps : List Reg}
    (h : CallUse kept saved target temps) :
    Conforms kept sees n (Value.Fits Reg.IsNamed true)
      (invoke saved target temps temps.length) := by
  intro s hroom _ _
  obtain ⟨x, hadds, hx⟩ := invoke_addsLines saved target h.count
  obtain ⟨s', hrun, hroom', hrestores⟩ := hadds.succeeds hroom
  have hcode : Conventional kept (callLines saved target temps s.listing.indent ++ []) := .call h .nil
  rw [List.append_nil] at hcode
  rw [hx, bind_apply, hrun]
  refine ⟨hrestores, hroom', ⟨_, (hadds.adds hrun).1, hcode⟩, ?_⟩
  rintro _ ⟨⟩
  exact ⟨rfl, Or.inl (by decide)⟩

theorem inFunction {params : List Symbol} {body : LowerM α}
    (hbody : Conforms kept params.contains n Q body) :
    Conforms kept sees n Q (insideFunction (withArguments params.length fun args =>
      bindParams params args >>= fun _ => body)) := by
  intro s hroom hkept hs
  by_cases hn : params.length ≤ 8
  · have hkept' : ∀ r ∈ kept, r ∈ (entered params s).registers.live :=
      fun r hr => RegSet.mem_union.2 (Or.inl (hkept r hr))
    exact .inFunction hn (hbody (entered params s) hroom hkept' (shows_entered hn))
  · rw [inFunction_apply, if_neg hn]
    exact fail (n := n) s hroom hkept hs

/-- Conforming is a property of the metered kind, so all of lowering has it. -/
theorem metered : Metered Reg.IsNamed kept (@Conforms kept) where
  result := Or.inl (by decide)
  temporary h := Or.inr h
  pure := pure
  imp := imp
  bind := bind
  fail _ := fail
  live hf s hroom hkept hs := hf s.registers.live hkept s hroom hkept hs
  lookup := lookup
  emit h _ hroom _ _ := .writing hroom (.write _) (.write fun _ => h)
  defineLabel _ _ hroom _ _ := .writing hroom (.write _) (.write fun _ => trivial)
  newLabel _ _ hroom _ _ := .of_silent ⟨rfl, rfl, rfl⟩ hroom ⟨rfl, rfl⟩ fun _ _ => trivial
  comment := comment
  tell _ _ hroom _ _ := .tell hroom _
  bindGlobal _ _ _ hroom _ _ := .of_silent ⟨rfl, rfl, rfl⟩ hroom ⟨rfl, rfl⟩ fun _ _ => trivial
  withTemporaries := withTemporaries
  invoke := invoke
  inFunction := inFunction

end Conforms
/-! ## Functions and runs -/

def AddsKeeping (kept : RegSet) (s s' : Lowering) : Prop :=
  ∃ code, s'.listing.lines = code.reverse ++ s.listing.lines ∧ KeepsConvention kept code

/-- A conforming step has added lines that keep to the convention. -/
theorem Conforming.addsKeeping {out : Except LowerError α × Lowering} (h : Conforming kept Q s out) :
    AddsKeeping kept s out.2 := by
  obtain ⟨code, hlines, hcode⟩ := h.code
  exact ⟨code, hlines, hcode.keeps⟩

/-- The code of a term keeps to the convention where its variables are in named registers. -/
theorem addsKeeping_of_follows {t : Term} {p : Part}
    (h : p.Follows Reg.IsNamed (@Conforms s.registers.live) t) (hroom : s.listing.room = none)
    (hlocals : ∀ name r, s.scopes.localValue? name = some (.register r) → r.IsNamed) :
    AddsKeeping s.registers.live s (p.code s).2 :=
  (h.code _ s hroom (fun _ hr => hr) (Scopes.shows_seesRegister hlocals)).addsKeeping

/-- Around the calls in a function are saved the registers of its parameters and what was live around
the function. -/
theorem addsKeeping_functionAt (label : Label) {ρ : Type} {params : List Symbol} {body : List ρ}
    {tree : ρ → Term} {part : ρ → Part} (hn : params.length ≤ 8) (hroom : s.listing.room = none)
    (h : ∀ r ∈ body,
      (part r).Follows Reg.IsNamed (@Conforms (entered params s).registers.live) (tree r)) :
    AddsKeeping (entered params s).registers.live s
      (functionAt label ⟨params, body.map fun r => (part r).code⟩ s).2 := by
  have hparts : ∀ x ∈ body.map (fun r => (tree r, part r)),
      x.2.Follows Reg.IsNamed (@Conforms (entered params s).registers.live) x.1 :=
    List.forall_mem_map.2 h
  have hsteps := (Conforms.metered.bodies hparts).imp fun _ _ h => h params.contains
  rw [List.map_map, List.map_map] at hsteps
  have hbody := Conforms.metered.functionBody (f := ⟨params, body.map fun r => (part r).code⟩)
    ("end of function " ++ label.text) (List.forall₂_map_right_iff.2 hsteps)
  -- The registers of the parameters are not live yet when the label is written.
  have hlabel : Conforming (entered params s).registers.live (fun _ => True) s
      (defineLabel label s) := .writing hroom (.write _) (.write fun _ => trivial)
  refine Conforming.addsKeeping (Q := fun _ => True) ?_
  refine hlabel.bind fun _ s₁ _ hroom₁ hrestores₁ => ?_
  refine (Conforming.tell hroom₁ _).bind fun _ s₂ _ hroom₂ hrestores₂ => .inFunction hn ?_
  have hlive : (entered params s₂).registers.live = (entered params s).registers.live := by
    change s₂.registers.live.union _ = s.registers.live.union _
    rw [(hrestores₁.trans hrestores₂).registers]
  exact hbody (entered params s₂) hroom₂ (fun r hr => hlive ▸ hr) (shows_entered hn)

/-- However a program is asked for, its listing is conventional. -/
theorem conventional_answer (requests : List Request) :
    Conventional ({} : Lowering).registers.live
      (Request.answer requests {}).listing.lines.reverse := by
  have hshows : ({} : Lowering).scopes.Shows Reg.IsNamed (Scopes.seesRegister {}) :=
    Scopes.shows_seesRegister fun name r h => by cases h
  have h := Request.answer_invariant (C := fun s => Restores {} s ∧ s.listing.room = none ∧
    Conventional ({} : Lowering).registers.live s.listing.lines.reverse) requests
    (s := {}) ⟨.refl _, rfl, .nil⟩ ?_
  · exact h.2.2
  · -- Between requests nothing is live but what is reserved from the start.
    rintro request s ⟨hrestores, hroom, hcode⟩
    obtain ⟨n, x, hx, hconforms⟩ := Conforms.metered.request (Scopes.seesRegister {}) request s
    have hkept : ∀ r ∈ ({} : Lowering).registers.live, r ∈ s.registers.live := by
      rw [hrestores.registers]
      exact fun _ hr => hr
    have hout := hconforms s hroom hkept (hrestores.shows hshows)
    rw [← hx] at hout
    obtain ⟨code, hlines, hcode'⟩ := hout.code
    refine ⟨hrestores.trans hout.restores, hout.room, ?_⟩
    rw [hlines, List.reverse_append, List.reverse_reverse]
    exact hcode.append hcode'

/-- In every run of a new generator on a sink without a limit, whatever is asked for and whether it
fails or not, the code keeps to the convention.

So does the code of every form, wherever it is begun, and around the calls in it is saved what was
live then; in a function, the registers of its parameters are saved, too.  The lines of a call itself
stand at the end of its code. -/
theorem code_keeps_calling_convention :
    (∀ requests : List Request, KeepsConvention ({} : Lowering).registers.live
      (Request.answer requests {}).listing.lines.reverse) ∧
    (∀ s : Lowering, s.listing.room = none →
      (∀ name r, s.scopes.localValue? name = some (.register r) → r.IsNamed) →
      (∀ t : Term, AddsKeeping s.registers.live s (lower t s).2) ∧
        ∀ (store : Store) (r : Ref), AddsKeeping s.registers.live s (store.lower r s).2) ∧
    (∀ (s : Lowering) (label : Label) (params : List Symbol), s.listing.room = none →
      params.length ≤ 8 →
      (∀ body : List Term, AddsKeeping (s.registers.live.union (RegSet.arguments params.length)) s
        (functionAt label ⟨params, body.map fun t => t.part.code⟩ s).2) ∧
      ∀ (store : Store) (depth : Nat) (body : List Ref),
        AddsKeeping (s.registers.live.union (RegSet.arguments params.length)) s
          (functionAt label ⟨params, body.map fun r => (store.part depth r).code⟩ s).2) ∧
    ∀ (callee : LowerM Value) (args : List (LowerM Source)) (s s' : Lowering) (v : Value),
      call callee args s = (.ok v, s') → EndsWithCall s.registers.live args.length s'.listing := by
  refine ⟨fun requests => (conventional_answer requests).keeps, ?_, ?_,
    fun _ _ _ _ _ h => endsWithCall_of_call h⟩
  · intro s hroom hlocals
    refine ⟨fun t => addsKeeping_of_follows (Conforms.metered.ofTerm t) hroom hlocals, ?_⟩
    intro store r
    exact addsKeeping_of_follows (Conforms.metered.ofRef store _ r) hroom hlocals
  · intro s label params hroom hn
    refine ⟨fun body => ?_, fun store depth body => ?_⟩
    · exact addsKeeping_functionAt label hn hroom fun t _ => Conforms.metered.ofTerm t
    · exact addsKeeping_functionAt label hn hroom fun r _ => Conforms.metered.ofRef store depth r

/-- The state in which the body of a function with the parameters `f` and `x` is generated. -/
def inTwoParameters : Lowering :=
  entered [⟨"f"⟩, ⟨"x"⟩] {}

/-- In that function, a call of `f` with `x` saves the registers of both. -/
theorem code_keeps_calling_convention_inTwoParameters :
    (∀ t, AddsKeeping inTwoParameters.registers.live inTwoParameters (lower t inTwoParameters).2) ∧
      (∃ v s', call (lookup ⟨"f"⟩) [(Part.ofAtom (.symbol ⟨"x"⟩)).source] inTwoParameters =
        (.ok v, s') ∧ EndsWithCall inTwoParameters.registers.live 1 s'.listing) ∧
      ∀ r ∈ RegSet.arguments 2, r ∈ inTwoParameters.registers.live.inter RegSet.callerSaved := by
  obtain ⟨-, hforms, -, hcalls⟩ := code_keeps_calling_convention
  refine ⟨(hforms inTwoParameters rfl (shows_entered (by decide)).usable).1, ?_, ?_⟩
  · have hsucceeds : (call (lookup ⟨"f"⟩) [(Part.ofAtom (.symbol ⟨"x"⟩)).source]
        inTwoParameters).1.toOption = some (.register Reg.result) := by decide +kernel
    rcases hrun : call (lookup ⟨"f"⟩) [(Part.ofAtom (.symbol ⟨"x"⟩)).source] inTwoParameters with
      ⟨cause | v, s'⟩
    · rw [hrun] at hsucceeds
      cases hsucceeds
    · exact ⟨v, s', rfl, hcalls _ _ _ _ _ hrun⟩
  · intro r hr
    have hindex := RegSet.mem_arguments.1 hr
    refine RegSet.mem_inter.2 ⟨RegSet.mem_union.2 (Or.inr hr), RegSet.mem_callerSaved.2 (Or.inl ?_)⟩
    omega

end Lowering
end RegisterLisp
