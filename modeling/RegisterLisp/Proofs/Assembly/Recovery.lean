import RegisterLisp.Proofs.Assembly.Reading
import RegisterLisp.Proofs.Assembly.Spelling
import RegisterLisp.Proofs.Lowering.CallingConvention
import RegisterLisp.Proofs.Lowering.NestedFunctions
import RegisterLisp.Proofs.Names

/-!
# Assembly cannot be injected

What the generator writes can be read off the assembly, line by line, whatever names and strings
there are in the source.  Three things are needed of the lines of a program.

1. Comments are on one line, and labels are made from names without blanks.  Names come from the
   source here, so this is shown of terms without blanks in their names (`Tidies`).
2. Instructions are those of the machine, since the code keeps to the calling convention.
3. Labels in operands are labels that the code defines, since labels are sound.

Then every line is read back from its text (`Lowering.isPlain_of_run`).
-/

namespace RegisterLisp

open Text (IsFlat isBlank)

/-! ## Labels -/

namespace Label

/-- Spelling a character out makes no blank. -/
theorem not_isBlank_spellChar {c c' : Char} (hc : isBlank c = false) (h : c' ∈ spellChar c) :
    isBlank c' = false := by
  have htable : ∀ p ∈ spellings, p.2.toList.all (fun c => !isBlank c) = true := by decide +kernel
  rcases spellChar_cases c with ⟨spelling, hmem, heq⟩ | ⟨heq, -⟩
  · rw [heq] at h
    simpa using List.all_eq_true.1 (htable _ hmem) c' h
  · rw [heq, List.mem_singleton] at h
    rw [h, hc]

/-- The label of a name without blanks. -/
theorem isPlain_ofGlobal {s : Symbol} (h : s.IsSolid) : (ofGlobal s.name).IsPlain := by
  rw [ofGlobal]
  refine ⟨⟨'.', _, String.toList_ofList, .inl rfl⟩, fun c hc => ?_⟩
  rw [String.toList_ofList] at hc
  rcases List.mem_cons.1 hc with rfl | hc
  · rfl
  obtain ⟨c', hc', hmem⟩ := List.mem_flatMap.1 hc
  split at hmem
  · rw [List.mem_singleton.1 hmem]
    rfl
  · exact not_isBlank_spellChar (h c' hc') hmem

/-- A local label, with a stem without blanks. -/
theorem isPlain_ofLocal {stem : String} (h : stem.toList.all (fun c => !isBlank c) = true)
    (n : Nat) : (ofLocal stem n).IsPlain := by
  refine ⟨⟨'@', _, toList_ofLocal stem n, .inr rfl⟩, fun c hc => ?_⟩
  have hstem : ∀ c ∈ (spell stem).toList, isBlank c = false := by
    intro c hc
    rw [spell, String.toList_ofList] at hc
    obtain ⟨c', hc', hmem⟩ := List.mem_flatMap.1 hc
    exact not_isBlank_spellChar (by simpa using List.all_eq_true.1 h c' hc') hmem
  have hnumber : ∀ c ∈ Nat.toDigits 10 n, isBlank c = false := fun c hc =>
    Text.not_isBlank_of_isDigit (Nat.isDigit_of_mem_toDigits (by norm_num) (by norm_num) hc)
  have hunderscore : isBlank '_' = false := rfl
  rw [toList_ofLocal] at hc
  simp only [List.mem_cons, List.mem_append, List.not_mem_nil, or_false] at hc
  rcases hc with rfl | rfl | hc | rfl | hc | rfl | rfl
  · rfl
  · exact hunderscore
  · exact hstem c hc
  · exact hunderscore
  · exact hnumber c hc
  all_goals exact hunderscore

end Label

/-! ## Comments and labels of a program -/

/-- Any instruction, or a statement that can be told from its text. -/
def Line.IsTidy (line : Line) : Prop :=
  (∃ opcode operands, line.statement = .instruction opcode operands) ∨ line.statement.IsPlain

namespace Lowering

open Steps

/-- A step that succeeds has added tidy lines. -/
def Tidies {α : Type} (x : LowerM α) : Prop :=
  Writes (fun code => ∀ line ∈ code, line.IsTidy) True (fun _ => True) x

namespace Tidies

variable {α β : Type}

/-- A step that writes nothing adds tidy lines. -/
theorem silent {x : LowerM α}
    (h : ∀ s a s', x s = (.ok a, s') → s'.listing.lines = s.listing.lines) : Tidies x :=
  Writes.silent (by simp) fun s a s' hx => ⟨h s a s' hx, fun _ => trivial⟩

/-- Tidy lines go through any sequence of steps. -/
theorem sequential : Sequential @Tidies where
  pure _ := Writes.pure (by simp) fun _ => trivial
  bind hx hf := Writes.bind hx (fun a => (hf a).imp fun _ => trivial)
    fun _ _ h h' => List.forall_mem_append.2 ⟨h, h'⟩

/-- One statement is written. -/
theorem write {statement : Statement} (h : ∀ indent, Line.IsTidy ⟨indent, statement⟩) :
    Tidies (writing (Listing.write statement)) := by
  intro _ s _ s' hs
  refine ⟨[⟨s.listing.indent, statement⟩], ?_, (wrote_of_writing hs).lines, trivial⟩
  simpa using h s.listing.indent

theorem emit (opcode : Opcode) (operands : List Operand) : Tidies (emit opcode operands) :=
  write fun _ => .inl ⟨opcode, operands, rfl⟩

/-- The definition of a label is tidy if the label is plain. -/
theorem defineLabel {l : Label} (h : l.IsPlain) : Tidies (defineLabel l) :=
  write fun _ => .inr (.label h)

/-- A text on one line becomes a comment on one line. -/
theorem comment {text : String} (h : IsFlat text.toList) : Tidies (comment text) := by
  have hfeed : Text.hasLineFeed text = false := by
    rw [Text.hasLineFeed, List.contains_eq_mem, decide_eq_false_iff_not]
    exact fun hmem => absurd (h '\n' hmem rfl) (by decide)
  have htrim : IsFlat (Text.trim text).toList := by
    rw [Text.trim, String.toList_ofList]
    intro c hc
    refine h c ?_
    -- Trimming takes characters away at both ends and adds none.
    have hback := (List.dropWhile_sublist _).mem (List.mem_reverse.1 hc)
    exact (List.dropWhile_sublist _).mem (List.mem_reverse.1 hback)
  rw [Lowering.comment, Listing.comment, if_neg (by simp [hfeed])]
  exact write fun _ => .inr (.comment htrim)

/-- The labels that code brings with it are made from a few stems. -/
theorem newLabel_bind {stem : String} {f : Label → LowerM α}
    (hstem : stem.toList.all (fun c => !isBlank c) = true)
    (h : ∀ l : Label, l.IsPlain → Tidies (f l)) : Tidies (newLabel stem >>= f) := by
  have hnew : Writes (fun code => ∀ line ∈ code, line.IsTidy) True Label.IsPlain
      (newLabel stem) := Writes.newLabel (by simp) fun n => Label.isPlain_ofLocal hstem n
  -- What follows may rely on the label being plain, so the two steps are put together here.
  intro _ s a s' hs
  obtain ⟨l, s₁, h₁, h₂⟩ := bind_eq_ok.1 hs
  obtain ⟨code, hcode, hlines, hl⟩ := hnew trivial s l s₁ h₁
  obtain ⟨code', hcode', hlines', -⟩ := h l hl trivial s₁ a s' h₂
  refine ⟨code ++ code', List.forall_mem_append.2 ⟨hcode, hcode'⟩, ?_, trivial⟩
  rw [hlines', hlines, List.reverse_append, List.append_assoc]

/-! ### Straight and branching code -/

/-- The steps of straight code add tidy lines. -/
theorem straight : Straight (fun _ => True) (fun _ _ x => Tidies x) where
  register _ := trivial
  imp _ hx := hx
  pure _ := sequential.pure _
  bind hx hf := sequential.bind hx hf
  live hf := by
    intro hA s a s' h
    obtain ⟨_, _, hget, h⟩ := bind_eq_ok.1 h
    cases hget
    exact hf _ hA s a s' h
  lookup name := by
    refine silent fun s v s' h => ?_
    rw [lookup_apply] at h
    cases hvalue : s.scopes.lookup name false with
    | none =>
        rw [hvalue] at h
        cases h
    | some value =>
        rw [hvalue] at h
        cases h
        rfl
  unsupported text := Writes.unsupported text
  refused _ := Writes.throw _
  emit _ _ := emit _ _
  withRegisters := Writes.withRegisters

theorem conjunct {out : Reg} {failure : Label} {operand : LowerM Source} (h : Tidies operand) :
    Tidies (conjunct out failure operand) := by
  refine sequential.bind h fun source => ?_
  refine sequential.bind (straight.putInto (A := False) out False.elim) fun _ => ?_
  rcases source with i | (r | l)
  · exact emit _ _
  · exact emit _ _
  · exact sequential.pure _

theorem disjunct {out : Reg} {success : Label} {operand : LowerM Source} (h : Tidies operand) :
    Tidies (disjunct out success operand) := by
  refine sequential.bind h fun source => ?_
  refine sequential.bind (straight.putInto (A := False) out False.elim) fun _ => ?_
  rcases source with i | (r | l) <;> exact emit _ _

/-- The two labels at the end of a short circuit are plain, so the lines are tidy. -/
theorem shortCircuitEnd (out : Reg) {failure success : Label} (hfailure : failure.IsPlain)
    (hsuccess : success.IsPlain) : Tidies (shortCircuitEnd out failure success) := by
  refine sequential.bind (defineLabel hfailure) fun _ => sequential.bind (emit _ _) fun _ => ?_
  exact sequential.bind (defineLabel hsuccess) fun _ => sequential.pure _

/-- The steps of code with jumps add tidy lines. -/
theorem branching : Branching (fun _ => True) (fun _ _ x => Tidies x) where
  toStraight := straight
  conjunction {operands} h := by
    unfold Lowering.conjunction
    split
    · exact straight.load (A := True) _
    · refine straight.withTemporary (A := True) (Q := fun _ => True) fun out => ?_
      refine newLabel_bind (by decide) fun failure hfailure => ?_
      refine newLabel_bind (by decide) fun success hsuccess => ?_
      refine sequential.bind (sequential.forM fun operand hmem => conjunct (h operand hmem)) ?_
      exact fun _ => sequential.bind (emit _ _) fun _ => shortCircuitEnd out hfailure hsuccess
  disjunction {operands} h := by
    unfold Lowering.disjunction
    split
    · exact straight.load (A := True) _
    · refine straight.withTemporary (A := True) (Q := fun _ => True) fun out => ?_
      refine newLabel_bind (by decide) fun failure hfailure => ?_
      refine newLabel_bind (by decide) fun success hsuccess => ?_
      refine sequential.bind (sequential.forM fun operand hmem => disjunct (h operand hmem)) ?_
      exact fun _ => shortCircuitEnd out hfailure hsuccess

/-! ### Functions and definitions -/

theorem bindParams (params : List Symbol) (regs : List Reg) : Tidies (bindParams params regs) := by
  induction params generalizing regs with
  | nil => exact sequential.pure _
  | cons p params ih =>
      cases regs with
      | nil => exact sequential.pure _
      | cons r regs =>
          have hbind : Tidies (Lowering.bind p (.register r)) := by
            refine silent fun s _ s' h => ?_
            cases h
            rfl
          exact sequential.bind hbind fun _ => ih regs

/-- The label of a function also stands in the comment at its end. -/
theorem functionAt {label : Label} {f : Function} (hlabel : label.IsPlain)
    (h : ∀ step ∈ f.body, Tidies step) : Tidies (functionAt label f) := by
  have hend : IsFlat ("end of function " ++ label.text).toList := by
    rw [String.toList_append]
    exact Text.isFlat_append.2
      ⟨Text.isFlat_of_all (by decide), Text.isFlat_of_not_isBlank hlabel.solid⟩
  refine sequential.bind (defineLabel hlabel) fun _ => ?_
  refine sequential.bind (Writes.tell (by simp) _) fun _ => ?_
  refine Writes.insideFunction (Writes.withArguments fun args => ?_)
  refine sequential.bind (bindParams _ _) fun _ => ?_
  refine sequential.bind (sequential.inSequence h) fun v => ?_
  exact sequential.bind (emit _ _) fun _ => comment hend

/-- The code of a literal is tidy if that of its body is. -/
theorem localFunction {f : Function} (h : ∀ step ∈ f.body, Tidies step) :
    Tidies (localFunction f) := by
  refine newLabel_bind (by decide) fun label hlabel => ?_
  refine newLabel_bind (by decide) fun skip hskip => ?_
  refine sequential.bind (emit _ _) fun _ => sequential.bind (functionAt hlabel h) fun _ => ?_
  exact sequential.bind (defineLabel hskip) fun _ => sequential.pure _

theorem bindGlobal (name : Symbol) (label : Label) : Tidies (bindGlobal name label) := by
  refine silent fun s _ s' h => ?_
  cases h
  rfl

/-- A global function adds tidy lines if its name has no blanks in it. -/
theorem define {name : Symbol} {f : Function} (hname : name.IsSolid)
    (h : ∀ step ∈ f.body, Tidies step) : Tidies (define name f) := by
  refine sequential.bind (bindGlobal _ _) fun _ => ?_
  exact sequential.bind (functionAt (Label.isPlain_ofGlobal hname) h) fun _ => sequential.pure _

/-- A constructor or a method adds tidy lines under a plain label. -/
theorem member {label : Label} {p : Part} (hlabel : label.IsPlain) (h : p.Has Tidies) :
    Tidies (member label p) := by
  unfold Lowering.member
  split
  · rename_i f hf
    exact functionAt hlabel (h.function f hf)
  · exact Writes.unsupported _

/-- A type adds tidy lines if its names have no blanks in them. -/
theorem defineType {name : Symbol} {ctor : Part} {methods : List (Symbol × Part)}
    (hname : name.IsSolid) (hctor : ctor.Has Tidies) (hnames : ∀ m ∈ methods, m.1.IsSolid)
    (hmethods : ∀ m ∈ methods, m.2.Has Tidies) : Tidies (defineType name ctor methods) := by
  have hmethod : ∀ m ∈ methods, (methodLabel name m.1).IsPlain := fun m hm =>
    Label.isPlain_ofGlobal (Symbol.isSolid_method hname (hnames m hm))
  refine sequential.bind (bindGlobal _ _) fun _ => ?_
  refine sequential.bind (sequential.forM fun m _ => bindGlobal _ _) fun _ => ?_
  refine sequential.bind (member (Label.isPlain_ofGlobal hname) hctor) fun _ => ?_
  refine sequential.bind (sequential.forM fun m hm => ?_) fun _ => sequential.pure _
  exact member (hmethod m hm) (hmethods m hm)

/-! ### Forms -/

theorem lowerDefine {text : Thunk String} {args : List Term} (hsolid : ∀ t ∈ args, t.Solid)
    (h : ∀ t ∈ args, t.part.Has Tidies) : Tidies (lowerDefine text (Term.parts args)) := by
  rcases args with _ | ⟨name, _ | ⟨value, _ | ⟨_, _⟩⟩⟩
  · exact Writes.unsupported _
  · exact Writes.unsupported _
  · have hparts : Term.parts [name, value] = [name.part, value.part] := rfl
    rw [hparts, Lowering.lowerDefine, Term.symbol?_part]
    cases hname : name.view.symbol? with
    | none => exact Writes.unsupported _
    | some s =>
        cases hf : value.part.function? with
        | none => exact Writes.unsupported _
        | some f =>
            obtain rfl := Term.eq_symbol_of_view hname
            have hs : s.IsSolid := (hsolid (.symbol s) (by simp [Term.symbol])).isSolid
            exact define hs ((h value (by simp)).function f hf)
  · exact Writes.unsupported _

/-- The code of a term without blanks in its names. -/
theorem ofTerm {t : Term} (h : t.Solid) : t.part.Has Tidies := by
  induction h with
  | symbol _ => exact straight.ofAtom (A := True) _
  | literal _ => exact straight.ofAtom (A := True) _
  | quoted _ _ => exact ⟨Writes.unsupported _, fun _ hf => by cases hf⟩
  | @list items hsolid ih =>
      refine ⟨branching.lowerList ?_ ?_ ?_, fun _ hf => by cases hf⟩
      · intro p hp
        rw [Term.parts_eq_map] at hp
        obtain ⟨t, ht, rfl⟩ := List.mem_map.1 hp
        exact (ih t ht).code
      · -- A definition takes its name from the items.
        intro head args hparts _
        cases items with
        | nil => cases hparts
        | cons t ts =>
            cases hparts
            exact lowerDefine (fun t ht => hsolid t (List.mem_cons_of_mem _ ht))
              fun t ht => ih t (List.mem_cons_of_mem _ ht)
      · exact fun _ _ _ _ _ _ _ => .inr fun _ => Writes.throw _
  | @func params body _ _ ih =>
      -- A literal has a local label, so its parameters are the only names.
      have hsteps : ∀ step ∈ (Term.parts body).map Part.code, Tidies step := by
        intro step hstep
        obtain ⟨p, hp, rfl⟩ := List.mem_map.1 hstep
        rw [Term.parts_eq_map] at hp
        obtain ⟨t, ht, rfl⟩ := List.mem_map.1 hp
        exact (ih t ht).code
      refine ⟨localFunction hsteps, ?_⟩
      intro f hf
      cases hf
      exact hsteps
  | @typeDef name fields ctor methods hname _ _ hnames _ ihctor ih =>
      have hparts : ∀ m ∈ Term.methodParts methods, m.1.IsSolid ∧ m.2.Has Tidies := by
        intro m hm
        rw [Term.methodParts_eq_map] at hm
        obtain ⟨m', hm', rfl⟩ := List.mem_map.1 hm
        exact ⟨hnames m' hm', ih m' hm'⟩
      exact ⟨defineType hname ihctor (fun m hm => (hparts m hm).1) fun m hm => (hparts m hm).2,
        fun _ hf => by cases hf⟩

/-- All lines of a program without blanks in its names are tidy. -/
theorem lowerProgram {ts : List Term} (h : ∀ t ∈ ts, t.Solid) :
    Tidies (lowerProgram (Term.parts ts)) := by
  induction ts with
  | nil => exact sequential.pure _
  | cons t ts ih =>
      obtain ⟨ht, hts⟩ := List.forall_mem_cons.1 h
      have htext : t.part.text.get = t.render := by cases t <;> rfl
      rw [Term.parts, Lowering.lowerProgram, htext]
      refine sequential.bind (comment ht.isFlat_render) fun _ => ?_
      exact sequential.bind (ofTerm ht).code fun _ => ih hts

end Tidies

/-! ## Lines of a program -/

variable {ts : List Term} {s' : Lowering}

/-- Every line of a program without blanks in its names can be told from its text. -/
theorem isPlain_of_run (hsolid : ∀ t ∈ ts, t.Solid)
    (h : lowerProgram (Term.parts ts) {} = (.ok (), s')) :
    ∀ line ∈ s'.listing.lines.reverse, line.statement.IsPlain := by
  -- Three facts about the lines: they are tidy, keep the convention and have sound labels.
  have htidy : ∀ line ∈ s'.listing.lines.reverse, line.IsTidy := by
    obtain ⟨code, hcode, hlines, -⟩ := Tidies.lowerProgram hsolid trivial _ _ _ h
    rw [hlines]
    simpa using hcode
  have hknown : ∀ line ∈ s'.listing.lines.reverse, LineKeeps line := by
    have hanswer : Request.answer [.program ts] {} = s' := congrArg Prod.snd h
    rw [← hanswer]
    exact (conventional_answer [.program ts]).keeps.lines
  have hlabels : ∀ l, Mentions s'.listing.lines.reverse l → Defines s'.listing.lines.reverse l := by
    have hlays : ∀ D, Lays D (Settled fun _ => False) True (fun _ => True)
        (lowerProgram (Term.parts ts)) := fun D =>
      (Lays.composed D).lowerProgram ((Lays.composed D).terms (fun _ _ => Lays.throw _) ts)
    exact (Lays.labelsSound hlays h).1.defined
  intro line hline
  rcases htidy line hline with ⟨opcode, operands, hstatement⟩ | hplain
  · rw [hstatement]
    refine .instruction (Opcode.mem_known fun name hname => ?_) fun l hl => ?_
    · -- An instruction that is given by its name is none of the machine's.
      exact (hknown line hline).known.2 name operands (hname ▸ hstatement)
    · -- The operand is a label that some line defines, and that line is tidy.
      obtain ⟨line', hline', hlabel⟩ := hlabels l ⟨line, hline, opcode, operands, hstatement, hl⟩
      rcases htidy line' hline' with ⟨_, _, hinstruction⟩ | hplain
      · rw [hlabel] at hinstruction
        cases hinstruction
      · rw [hlabel] at hplain
        cases hplain with
        | label h => exact h
  · exact hplain

/-- The assembly of every text that has some consists of the lines that were written for it, one
after the other: comments on one line, labels and instructions of the machine.  Each of them can be
read off its text, with its operands; and the only blanks in it are spaces, so no other notion of
lines divides it differently. -/
theorem assembly_lines_are_recovered {source assembly : String}
    (h : (Compiler.compile source).result = .ok assembly) :
    Text.lines assembly = (linesOf source).map Line.text ∧
    (Text.lines assembly).mapM Line.ofText? = some (linesOf source) ∧
    ∀ line ∈ linesOf source, IsFlat line.text.toList ∧
      ((∃ text, line.statement = .comment text) ∨ (∃ l, line.statement = .label l) ∨
        ∃ opcode operands, line.statement = .instruction opcode operands) := by
  obtain ⟨forms, s', hfold, hrun, rfl⟩ := exists_run_of_compile h
  have hcode : linesOf source = s'.listing.lines.reverse := linesOf_of_run hfold hrun
  have hplain := isPlain_of_run (Term.solid_of_fold hfold) hrun
  rw [← hcode] at hplain
  have hlines : Text.lines s'.listing.text = (linesOf source).map Line.text := by
    rw [text_of_run hrun, ← hcode]
    exact Text.lines_join fun line hline => Line.isFlat_text (hplain line hline)
  refine ⟨hlines, ?_, fun line hline => ⟨Line.isFlat_text (hplain line hline), ?_⟩⟩
  · rw [hlines]
    exact mapM_map_eq_some fun line hline => Line.ofText?_text (hplain line hline)
  · have hstatement := hplain line hline
    generalize line.statement = statement at hstatement
    cases hstatement with
    | comment _ => exact .inl ⟨_, rfl⟩
    | label _ => exact .inr (.inl ⟨_, rfl⟩)
    | instruction _ _ => exact .inr (.inr ⟨_, _, rfl⟩)

/-- A name that looks like a comment, a register, a label and a register set, and a string with a
quote, a bracket, a line feed and a blank that is no space. -/
def hostileNames : String :=
  "(define //r1:[x] (func (f) (f \"a\\\" ]\\n.g:\u00a0\" 1e20) (and f //r1:[x])))"

/-- Its assembly has 19 lines, and the string is found in the fourth of them. -/
theorem assembly_lines_are_recovered_hostileNames :
    (∃ assembly, (Compiler.compile hostileNames).result = .ok assembly ∧
      (Text.lines assembly).length = 19 ∧
      (Text.lines assembly).mapM Line.ofText? = some (linesOf hostileNames)) ∧
    (linesOf hostileNames)[3]? = some ⟨1, .instruction .load
      [.register ⟨33⟩, .immediate (.string "a\" ]\n.g:\u00a0")]⟩ := by
  obtain ⟨hcompiled, hlength, hstring⟩ :
      (Compiler.compile hostileNames).result.toBool = true ∧ (linesOf hostileNames).length = 19 ∧
        (linesOf hostileNames)[3]? = some ⟨1, .instruction .load
          [.register ⟨33⟩, .immediate (.string "a\" ]\n.g:\u00a0")]⟩ := by
    decide +kernel
  refine ⟨?_, hstring⟩
  cases hresult : (Compiler.compile hostileNames).result with
  | error cause =>
      rw [hresult] at hcompiled
      cases hcompiled
  | ok assembly =>
      obtain ⟨hlines, hread, -⟩ := assembly_lines_are_recovered hresult
      exact ⟨assembly, rfl, by rw [hlines, List.length_map, hlength], hread⟩

end Lowering
end RegisterLisp
