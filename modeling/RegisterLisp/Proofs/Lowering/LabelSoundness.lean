import RegisterLisp.Compiler
import RegisterLisp.Proofs.Lowering.LaidCode
import RegisterLisp.Proofs.Lowering.TermEmission
import RegisterLisp.Proofs.Lowering.Truncation

/-!
# Labels in the code of programs

The forms that bring labels with them are short-circuit forms, functions and definitions.  What each
of them lays down defines the labels that it created, and its jumps land.

So for the code of a whole program, `D` can be taken to be what the code defines.  All labels that
are mentioned are defined, local ones exactly once, and every jump goes forward inside of one
function.
-/

namespace RegisterLisp
namespace Lowering

open Steps

variable {D : Label → Prop} {s s₁ s₂ s' : Lowering} {code code' : List Line}

namespace Lays

variable {α : Type} {A : Prop} {Q : α → Prop}

/-! ## Short-circuit forms -/

section ShortCircuit

variable {pending : Label → Prop} {out : Reg} {failure success : Label} {operand : LowerM Source}

/-- Code that is settled by itself is so with pending labels. -/
theorem unsettled {x : LowerM α} (h : Lays D (Settled fun _ => False) True Q x) :
    Lays D (Settled pending) A Q x :=
  (h.mono fun _ hcode => hcode.mono fun _ hl => hl.elim).imp fun _ => trivial

/-- One operand of `and`: its jump is pending until the failure label is defined. -/
theorem conjunct (hlocal : failure.isLocal = true) (hpending : pending failure)
    (h : Lays D (Settled fun _ => False) True (Source.Good (Value.In D)) operand) :
    Lays D (Settled pending) (D failure) (fun _ => True) (conjunct out failure operand) := by
  have hP := straight D pending
  refine hP.bind h.unsettled fun source => ?_
  refine hP.bind (hP.putInto out And.right) fun _ => ?_
  have hjump : Lays D (Settled pending) ((D failure ∧ source.Good (Value.In D)) ∧ True)
      (fun _ => True) (Lowering.emit .jumpIfZero [.register out, .label failure]) := by
    refine emit (fun _ => .jump (by simp) rfl hlocal hpending) fun hA l hl => ?_
    obtain rfl : l = failure := by simpa using hl
    exact hA.1.1
  -- A label is never zero, so there is no jump behind it.
  rcases source with i | (r | l)
  · exact hjump
  · exact hjump
  · exact hP.pure fun _ => trivial

/-- One operand of `or`: its jump is pending until the success label is defined. -/
theorem disjunct (hlocal : success.isLocal = true) (hpending : pending success)
    (h : Lays D (Settled fun _ => False) True (Source.Good (Value.In D)) operand) :
    Lays D (Settled pending) (D success) (fun _ => True) (disjunct out success operand) := by
  have hP := straight D pending
  refine hP.bind h.unsettled fun source => ?_
  refine hP.bind (hP.putInto out And.right) fun _ => ?_
  have hjump : ∀ {opcode operands}, opcode ≠ .ret →
      (operands = [.register out, .label success] ∨ operands = [.label success]) →
      Lays D (Settled pending) ((D success ∧ source.Good (Value.In D)) ∧ True)
        (fun _ => True) (Lowering.emit opcode operands) := by
    intro opcode operands hopcode hoperands
    have htarget : operands.getLast? = some (.label success) := by
      rcases hoperands with rfl | rfl <;> rfl
    refine emit (fun _ => .jump hopcode htarget hlocal hpending) fun hA l hl => ?_
    obtain rfl : l = success := by rcases hoperands with rfl | rfl <;> simpa using hl
    exact hA.1.1
  -- Behind a label the jump is taken in any case, and so does not look at the register.
  rcases source with i | (r | l)
  · exact hjump (by simp) (Or.inl rfl)
  · exact hjump (by simp) (Or.inl rfl)
  · exact hjump (by simp) (Or.inr rfl)

end ShortCircuit

end Lays

section ShortCircuitLines

variable {indent : Nat} {out : Reg} {failure success : Label}

/-- The end of a short circuit jumps nowhere. -/
theorem settled_shortCircuitLines (hfailure : failure.isFunction = false)
    (hsuccess : success.isFunction = false) :
    Settled (fun _ => False) (shortCircuitLines indent out failure success) :=
  (Settled.label hfailure).append ((Settled.plain rfl).append (Settled.label hsuccess))

/-- The labels are found one after the other. -/
theorem leadsTo_shortCircuitLines (hfailure : failure.isFunction = false) :
    LeadsTo (shortCircuitLines indent out failure success) failure ∧
      LeadsTo (shortCircuitLines indent out failure success) success := by
  have hlabel : Balanced [⟨indent, .label failure⟩] := .label hfailure
  have hload : Balanced [⟨indent, .instruction .load [.register out, .immediate (.number 0.0)]⟩] :=
    .instruction (by simp)
  exact ⟨⟨[], indent, _, rfl, .nil⟩, ⟨_, indent, [], rfl, hlabel.append hload⟩⟩

/-- The end of a short circuit defines the two labels that the operands jump to. -/
theorem localLabels_shortCircuitLines (hfailure : failure.isLocal = true)
    (hsuccess : success.isLocal = true) :
    (shortCircuitLines indent out failure success).filterMap Line.localLabel? =
      [failure, success] := by
  simp [shortCircuitLines, Line.localLabel?, hfailure, hsuccess, List.filterMap_cons]

theorem not_mentions_shortCircuitLines {l : Label} :
    ¬ Mentions (shortCircuitLines indent out failure success) l := by
  rintro ⟨line, hline, opcode, operands, hstatement, hl⟩
  simp only [shortCircuitLines, List.mem_cons, List.not_mem_nil, or_false] at hline
  rcases hline with rfl | rfl | rfl <;> cases hstatement
  simp at hl

end ShortCircuitLines

namespace Lays

/-- A short-circuit form: jumps to its two labels are pending in the code of its operands. -/
theorem shortCircuit {out : Reg} (operands : Label → Label → LowerM Unit)
    (h : ∀ failure success, failure.isLocal = true → success.isLocal = true →
      Lays D (Settled fun l => l = failure ∨ l = success) (D failure ∧ D success) (fun _ => True)
        (operands failure success)) :
    Lays D (Settled fun _ => False) True (Value.In D)
      (newLabel "failure" >>= fun failure => newLabel "success" >>= fun success =>
        operands failure success >>= fun _ => shortCircuitEnd out failure success) := by
  intro s v s' hs
  obtain ⟨failure, s₁, h₁, hs⟩ := bind_eq_ok.1 hs
  obtain ⟨success, s₂, h₂, hs⟩ := bind_eq_ok.1 hs
  obtain ⟨_, s₃, h₃, hend⟩ := bind_eq_ok.1 hs
  obtain ⟨rfl, hscopes, hnext, -⟩ := shortCircuitEnd_eq_ok hend
  obtain ⟨hfailure, hs₁⟩ := newLabel_eq_ok h₁
  obtain ⟨hsuccess, hs₂⟩ := newLabel_eq_ok h₂
  have hnext₂ : s₂.listing.nextLabel = s.listing.nextLabel + 2 := by rw [hs₂, hs₁]
  have hscopes₂ : s₂.scopes = s.scopes := by rw [hs₂, hs₁]
  have hlocal : failure.isLocal = true := hfailure ▸ Label.isLocal_ofLocal _ _
  have hlocal' : success.isLocal = true := hsuccess ▸ Label.isLocal_ofLocal _ _
  have hinner : failure.isFunction = false := hfailure ▸ Label.isFunction_failure _
  have hinner' : success.isFunction = false := hsuccess ▸ Label.isFunction_success _
  -- Both labels are local and not those of functions, so the operands may jump to them.
  obtain ⟨code, hcode, ⟨⟨new, hemission, hnew⟩, hcount⟩, hrefers⟩ :=
    h failure success hlocal hlocal' s₂ _ s₃ h₃
  refine ⟨_, ?_, ⟨⟨new, Emission.shortCircuit h₁ h₂ hemission hend, ?_⟩, ?_⟩, ?_⟩
  · refine hcode.resolve (settled_shortCircuitLines hinner hinner') ?_
    rintro l (rfl | rfl)
    · exact (leadsTo_shortCircuitLines hinner).1
    · exact (leadsTo_shortCircuitLines hinner).2
  · exact fun b hb => defines_append.2 (Or.inl (hnew b hb))
  · rw [hnext, hcount, hnext₂, List.filterMap_append,
      localLabels_shortCircuitLines hlocal hlocal', List.length_append, Nat.add_right_comm]
    rfl
  · -- The end of the code defines both labels, so the operands may mention them.
    intro _ hlabels hlocals
    have hD : ∀ l, l = failure ∨ l = success → D l := by
      intro l hl
      refine hlabels.defines l (defines_append.2 (Or.inr ⟨⟨s₃.listing.indent, .label l⟩, ?_, rfl⟩))
      rcases hl with rfl | rfl <;> simp [shortCircuitLines]
    have hlabels₃ : Comprises D code s₃ :=
      ⟨fun l hl => hlabels.defines l (defines_append.2 (Or.inl hl)), hscopes ▸ hlabels.globals⟩
    obtain ⟨hlocals₃, hmentions, -⟩ := hrefers ⟨hD _ (Or.inl rfl), hD _ (Or.inr rfl)⟩ hlabels₃
      (hscopes₂ ▸ hlocals)
    refine ⟨hscopes ▸ hlocals₃, ?_, trivial⟩
    exact fun l hl => hmentions l ((mentions_append.1 hl).resolve_right
      not_mentions_shortCircuitLines)

/-- A whole `and` is settled: the pending labels are defined at its end. -/
theorem conjunction {operands : List (LowerM Source)}
    (h : ∀ operand ∈ operands,
      Lays D (Settled fun _ => False) True (Source.Good (Value.In D)) operand) :
    Lays D (Settled fun _ => False) True (Value.In D) (conjunction operands) := by
  have hP := straight D fun _ => False
  unfold Lowering.conjunction
  split
  · exact hP.load _
  · refine hP.withTemporary fun out => ?_
    -- A jump over the failure ends the code of the operands.
    simp only [← bind_assoc (operands.forM _)]
    refine shortCircuit (fun failure success => operands.forM (Lowering.conjunct out failure) >>=
      fun _ => Lowering.emit .jump [.label success]) fun failure success hfailure hsuccess => ?_
    have hpending := straight D fun l => l = failure ∨ l = success
    refine hpending.bind (hpending.forM fun operand hmem => ?_) fun _ => ?_
    · exact (conjunct hfailure (Or.inl rfl) (h operand hmem)).imp And.left
    · refine emit (fun _ => .jump (by simp) rfl hsuccess (Or.inr rfl)) fun hA l hl => ?_
      obtain rfl : l = success := by simpa using hl
      exact hA.1.2

/-- So is a whole `or`. -/
theorem disjunction {operands : List (LowerM Source)}
    (h : ∀ operand ∈ operands,
      Lays D (Settled fun _ => False) True (Source.Good (Value.In D)) operand) :
    Lays D (Settled fun _ => False) True (Value.In D) (disjunction operands) := by
  have hP := straight D fun _ => False
  unfold Lowering.disjunction
  split
  · exact hP.load _
  · refine hP.withTemporary fun out => shortCircuit (fun _ success =>
      operands.forM (Lowering.disjunct out success)) fun failure success _ hsuccess => ?_
    have hpending := straight D fun l => l = failure ∨ l = success
    refine hpending.forM fun operand hmem => ?_
    exact (disjunct hsuccess (Or.inr rfl) (h operand hmem)).imp And.right

/-! ## Functions -/

theorem bindParams : ∀ (params : List Symbol) (regs : List Reg),
    Lays D (Settled fun _ => False) A (fun _ => True) (bindParams params regs)
  | [], _ => pure .nil fun _ => trivial
  | _ :: _, [] => pure .nil fun _ => trivial
  | p :: params, r :: regs =>
      (straight D _).bind (bindSymbol .nil p r) fun _ => bindParams params regs

/-- A body is settled if its forms are. -/
theorem inSequence :
    ∀ {steps : List (LowerM Value)} {value : Value} {A : Prop}, (A → value.In D) →
      (∀ step ∈ steps, Lays D (Settled fun _ => False) True (Value.In D) step) →
        Lays D (Settled fun _ => False) A (Value.In D) (inSequence value steps)
  | [], _, _, hvalue, _ => pure .nil hvalue
  | step :: steps, _, _, _, h => by
      refine (straight D _).bind (h step (by simp)).unsettled fun v => ?_
      exact inSequence And.right fun step' hmem => h step' (by simp [hmem])

/-- The end of a function returns its result. -/
theorem returning {v : Value} (text : String) :
    Lays D (fun code => ∃ indent operands comments,
        code = ⟨indent, .instruction .ret operands⟩ :: comments ∧
          ∀ line ∈ comments, line.isComment = true)
      (v.In D) (fun _ => True)
      (Lowering.emit .ret [Operand.ofValue v] >>= fun _ => Lowering.comment text) := by
  refine bind (emit (S := fun code => ∃ indent, code = [⟨indent, .instruction .ret _⟩])
    (fun indent => ⟨indent, rfl⟩) fun hv l hl => ?_) (fun _ => comment (fun _ h => h) text) ?_
  · cases v with
    | register r => simp [Operand.ofValue] at hl
    | label l' =>
        obtain rfl : l = l' := by simpa [Operand.ofValue] using hl
        exact hv
  · rintro code comments ⟨indent, rfl⟩ hcomments
    exact ⟨indent, _, comments, rfl, hcomments⟩

/-- What stands behind the label of a function is a body. -/
theorem functionBody {label : Label} {f : Function}
    (h : ∀ step ∈ f.body, Lays D (Settled fun _ => False) True (Value.In D) step) :
    Lays D IsBody True (fun _ => True) (functionBody label f) := by
  have hbody : Lays D IsBody True (fun _ => True)
      (Lowering.inSequence (.register Reg.result) f.body >>= fun result =>
        Lowering.emit .ret [Operand.ofValue result] >>= fun _ =>
          Lowering.comment ("end of function " ++ label.text)) := by
    refine bind (inSequence (fun _ => trivial) h) (fun v => (returning _).imp And.right) ?_
    rintro code _ hcode ⟨indent, operands, comments, rfl, hcomments⟩
    exact ⟨code, indent, operands, comments, hcode, hcomments, rfl⟩
  -- Whatever stands before the body belongs to it.
  have hbefore : ∀ code code', Settled (fun _ => False) code → IsBody code' →
      IsBody (code ++ code') := by
    rintro code _ hcode ⟨code', indent, operands, comments, hcode', hcomments, rfl⟩
    exact ⟨code ++ code', indent, operands, comments, hcode.append hcode', hcomments,
      (List.append_assoc _ _ _).symm⟩
  refine bind (tell .nil _) (fun _ => ?_) hbefore
  refine insideFunction (withArguments fun args => ?_)
  exact bind (bindParams _ _) (fun _ => hbody.imp fun _ => trivial) hbefore

/-- The code of a function at a global label. -/
theorem functionAt {label : Label} {f : Function} (hlabel : label.isLocal = false)
    (h : ∀ step ∈ f.body, Lays D (Settled fun _ => False) True (Value.In D) step) :
    Lays D (fun code => Settled (fun _ => False) code ∧ Defines code label) True (fun _ => True)
      (functionAt label f) := by
  have hdefine : Lays D (fun code => ∃ indent, code = [⟨indent, .label label⟩]) True
      (fun _ => True) (defineLabel label) := by
    intro s _ s' hs
    have hwrote := wrote_of_defineLabel hs
    refine ⟨_, ⟨_, rfl⟩, .of_wrote hwrote (by simp [Line.localLabel?, hlabel]), ?_⟩
    intro _ _ hlocals
    exact ⟨hwrote.scopes ▸ hlocals, fun l hl => absurd hl not_mentions_label, trivial⟩
  rw [functionAt_eq]
  refine bind hdefine (fun _ => (functionBody h).imp fun _ => trivial) ?_
  rintro _ body ⟨indent, rfl⟩ hbody
  exact ⟨hbody.settled (Label.isFunction_of_not_isLocal hlabel), _, List.mem_cons_self, rfl⟩

end Lays

section LiteralLines

variable {n before start behind : Nat} {body : List Line}

/-- The jump over a function waits for the label behind it. -/
theorem settled_literalLines (h : IsBody body) :
    Settled (fun _ => False) (literalLines n before start behind body) := by
  have hjump : Settled (fun l => l = .ofLocal "skip" (n + 1))
      [⟨before, .instruction .jump [.label (.ofLocal "skip" (n + 1))]⟩] :=
    .jump (by simp) rfl (Label.isLocal_ofLocal _ _) rfl
  have hfunction : Settled (fun _ => False) (⟨start, .label (.ofLocal "anonfunc" n)⟩ :: body) :=
    h.settled (Label.isFunction_anonfunc n)
  refine hjump.resolve (hfunction.append (.label (Label.isFunction_skip _))) ?_
  rintro l rfl
  exact ⟨_, behind, [], rfl, hfunction.balanced⟩

theorem length_localLabels_literalLines :
    ((literalLines n before start behind body).filterMap Line.localLabel?).length =
      (body.filterMap Line.localLabel?).length + 2 := by
  simp [literalLines, List.filterMap_append, List.filterMap_cons, Line.localLabel?]

/-- A literal defines its own label, the one behind it and those of its body. -/
theorem defines_literalLines {l : Label} (h : l = .ofLocal "anonfunc" n ∨
    l = .ofLocal "skip" (n + 1) ∨ Defines body l) :
    Defines (literalLines n before start behind body) l := by
  rcases h with rfl | rfl | h
  · exact ⟨⟨start, .label _⟩, by simp [literalLines], rfl⟩
  · exact ⟨⟨behind, .label _⟩, by simp [literalLines], rfl⟩
  · exact h.subset fun line hline => by simp [literalLines, hline]

/-- Besides the jump, only the body mentions labels. -/
theorem mentions_literalLines {l : Label}
    (h : Mentions (literalLines n before start behind body) l) :
    l = .ofLocal "skip" (n + 1) ∨ Mentions body l := by
  rcases mentions_append.1 h with h | h
  · exact Or.inl (by simpa using mentions_singleton.1 h)
  · have hbody := (mentions_cons.1 h).resolve_left not_mentions_label
    exact Or.inr ((mentions_append.1 hbody).resolve_right not_mentions_label)

end LiteralLines

namespace Lays

/-- A literal is settled, since the jump over it lands right behind it. -/
theorem localFunction {f : Function}
    (h : ∀ step ∈ f.body, Lays D (Settled fun _ => False) True (Value.In D) step) :
    Lays D (Settled fun _ => False) True (Value.In D) (localFunction f) := by
  intro s v s' hs
  obtain ⟨s₂, s₃, s₄, rfl, hjump, hfunction, hskip, rfl⟩ := localFunction_eq_ok hs
  rw [functionAt_eq] at hfunction
  obtain ⟨_, s₅, hlabel, hbody⟩ := bind_eq_ok.1 hfunction
  have hlabel := wrote_of_defineLabel hlabel
  obtain ⟨body, hbody, ⟨⟨new, hemission, hnew⟩, hcount⟩, hrefers⟩ :=
    functionBody h s₅ _ s₄ hbody
  refine ⟨_, settled_literalLines hbody,
    ⟨⟨new, Emission.localFunction hjump hlabel hemission hskip, ?_⟩, ?_⟩, ?_⟩
  · exact fun b hb => defines_literalLines (Or.inr (Or.inr (hnew b hb)))
  · rw [hskip.nextLabel, hcount, hlabel.nextLabel, hjump.nextLabel,
      length_localLabels_literalLines, Nat.add_right_comm, Nat.add_assoc]
  · intro _ hlabels hlocals
    have hlabels₄ : Comprises D body s₄ :=
      ⟨fun l hl => hlabels.defines l (defines_literalLines (Or.inr (Or.inr hl))),
        hskip.scopes ▸ hlabels.globals⟩
    have hscopes₅ : s₅.scopes = s.scopes := by rw [hlabel.scopes, hjump.scopes]
    obtain ⟨hlocals₄, hmentions, -⟩ := hrefers trivial hlabels₄ (hscopes₅ ▸ hlocals)
    refine ⟨hskip.scopes ▸ hlocals₄, fun l hl => ?_, ?_⟩
    · rcases mentions_literalLines hl with hskipped | hl
      · exact hlabels.defines l (defines_literalLines (Or.inr (Or.inl hskipped)))
      · exact hmentions l hl
    · exact hlabels.defines _ (defines_literalLines (Or.inl rfl))

end Lays

/-! ## Definitions -/

/-- A step that binds globals to labels with a property, and does nothing else. -/
def Declares (N : Label → Prop) (y : LowerM PUnit) : Prop :=
  ∀ s u s₁, y s = (.ok u, s₁) →
    ∃ names, s₁ = { s with scopes := s.scopes.declare names } ∧ ∀ b ∈ names, N b.2

namespace Declares

variable {N : Label → Prop}

/-- Binding a global declares its label. -/
theorem bindGlobal {name : Symbol} {label : Label} (h : N label) :
    Declares N (bindGlobal name label) := by
  intro s u s₁ hs
  cases hs
  exact ⟨[(name, label)], rfl, by simpa using h⟩

theorem bind {x y : LowerM PUnit} (hx : Declares N x) (hy : Declares N y) :
    Declares N (x >>= fun _ => y) := by
  intro s u s₁ hs
  obtain ⟨_, s₂, h₁, h₂⟩ := bind_eq_ok.1 hs
  obtain ⟨names, rfl, hnames⟩ := hx s _ s₂ h₁
  obtain ⟨names', rfl, hnames'⟩ := hy _ _ s₁ h₂
  refine ⟨names' ++ names, ?_, List.forall_mem_append.2 ⟨hnames', hnames⟩⟩
  rw [Scopes.declare_append]

theorem forM {γ : Type} {f : γ → LowerM PUnit} :
    ∀ {xs : List γ}, (∀ x ∈ xs, Declares N (f x)) → Declares N (xs.forM f)
  | [], _ => by
      intro s u s₁ hs
      cases hs
      exact ⟨[], rfl, by simp⟩
  | x :: xs, h => bind (h x (by simp)) (forM fun y hy => h y (by simp [hy]))

end Declares

namespace Lays

/-- A definition: globals are bound, the code that defines their labels is written, and one of the
labels is returned. -/
theorem definition {N : Label → Prop} {y x : LowerM PUnit} {label : Label} (hy : Declares N y)
    (hx : Lays D (fun code => Settled (fun _ => False) code ∧ ∀ l, N l → Defines code l) True
      (fun _ => True) x) (hlabel : N label) :
    Lays D (Settled fun _ => False) True (Value.In D)
      (y >>= fun _ => x >>= fun _ => Pure.pure (.label label)) := by
  intro s v s' h
  obtain ⟨_, s₁, h₁, h₂⟩ := bind_eq_ok.1 h
  obtain ⟨names, rfl, hnames⟩ := hy s _ s₁ h₁
  obtain ⟨_, s₂, h₂, hpure⟩ := bind_eq_ok.1 h₂
  cases hpure
  obtain ⟨code, ⟨hcode, hdefines⟩, ⟨⟨new, hemission, hnew⟩, hcount⟩, hrefers⟩ := hx _ _ s' h₂
  refine ⟨code, hcode, ⟨⟨new ++ names, ⟨?_, hemission.lines, hemission.labels⟩, ?_⟩, hcount⟩, ?_⟩
  · rw [hemission.globals, List.append_assoc]
    rfl
  · exact List.forall_mem_append.2 ⟨hnew, fun b hb => hdefines _ (hnames b hb)⟩
  · -- The local symbols are the same before and after the globals are bound.
    intro _ hlabels hlocals
    obtain ⟨hlocals', hmentions, -⟩ := hrefers trivial hlabels ⟨hlocals.inner, hlocals.outermost⟩
    exact ⟨hlocals', hmentions, hlabels.defines _ (hdefines _ hlabel)⟩

/-- A global function is settled and defines its label. -/
theorem define {name : Symbol} {f : Function}
    (h : ∀ step ∈ f.body, Lays D (Settled fun _ => False) True (Value.In D) step) :
    Lays D (Settled fun _ => False) True (Value.In D) (define name f) := by
  have hfunction := functionAt (Label.isLocal_ofGlobal name.name) h
  refine definition (N := fun l => l = .ofGlobal name.name) (.bindGlobal rfl)
    (hfunction.mono fun code hcode => ⟨hcode.1, ?_⟩) rfl
  rintro l rfl
  exact hcode.2

/-- A constructor or method is laid down under its label. -/
theorem member {label : Label} {p : Part} (hlabel : label.isLocal = false)
    (h : ∀ f, p.function? = some f →
      ∀ step ∈ f.body, Lays D (Settled fun _ => False) True (Value.In D) step) :
    Lays D (fun code => Settled (fun _ => False) code ∧ Defines code label) True (fun _ => True)
      (member label p) := by
  unfold Lowering.member
  split
  · rename_i f hf
    exact functionAt hlabel (h f hf)
  · exact unsupported _

theorem methods (name : Symbol) :
    ∀ {methods : List (Symbol × Part)}, (∀ m ∈ methods, ∀ f, m.2.function? = some f →
      ∀ step ∈ f.body, Lays D (Settled fun _ => False) True (Value.In D) step) →
      Lays D (fun code => Settled (fun _ => False) code ∧
          ∀ m ∈ methods, Defines code (methodLabel name m.1)) True (fun _ => True)
        (methods.forM fun m => Lowering.member (methodLabel name m.1) m.2)
  | [], _ => pure ⟨.nil, by simp⟩ fun _ => trivial
  | m :: ms, h => by
      have hfirst := member (Label.isLocal_ofGlobal (Symbol.method name m.1).name) (h m (by simp))
      have hrest := methods name fun m' (hm' : m' ∈ ms) => h m' (by simp [hm'])
      refine bind hfirst (fun _ => hrest.imp fun _ => trivial) ?_
      rintro code code' ⟨hcode, hlabel⟩ ⟨hcode', hlabels⟩
      refine ⟨hcode.append hcode', List.forall_mem_cons.2 ⟨?_, fun m' hm' => ?_⟩⟩
      · exact defines_append.2 (Or.inl hlabel)
      · exact defines_append.2 (Or.inr (hlabels m' hm'))

/-- A type defines the labels of its constructor and of all its methods. -/
theorem defineType {name : Symbol} {ctor : Part} {ms : List (Symbol × Part)}
    (hctor : ∀ f, ctor.function? = some f →
      ∀ step ∈ f.body, Lays D (Settled fun _ => False) True (Value.In D) step)
    (hmethods : ∀ m ∈ ms, ∀ f, m.2.function? = some f →
      ∀ step ∈ f.body, Lays D (Settled fun _ => False) True (Value.In D) step) :
    Lays D (Settled fun _ => False) True (Value.In D) (defineType name ctor ms) := by
  -- The names of the type and of its methods are bound first, in this order.
  have hnames : Declares (fun l => l = .ofGlobal name.name ∨ ∃ m ∈ ms, l = methodLabel name m.1)
      (bindGlobal name (.ofGlobal name.name) >>= fun _ =>
        ms.forM fun m => bindGlobal (Symbol.method name m.1) (methodLabel name m.1)) := by
    refine (Declares.bindGlobal (Or.inl rfl)).bind (.forM fun m hm => ?_)
    exact .bindGlobal (Or.inr ⟨m, hm, rfl⟩)
  have hmembers : Lays D (fun code => Settled (fun _ => False) code ∧
      ∀ l, l = .ofGlobal name.name ∨ (∃ m ∈ ms, l = methodLabel name m.1) → Defines code l) True
      (fun _ => True) (Lowering.member (.ofGlobal name.name) ctor >>= fun _ =>
        ms.forM fun m => Lowering.member (methodLabel name m.1) m.2) := by
    refine bind (member (Label.isLocal_ofGlobal _) hctor)
      (fun _ => (methods name hmethods).imp fun _ => trivial) ?_
    rintro code code' ⟨hcode, hlabel⟩ ⟨hcode', hlabels⟩
    refine ⟨hcode.append hcode', ?_⟩
    rintro l (rfl | ⟨m, hm, rfl⟩)
    · exact defines_append.2 (Or.inl hlabel)
    · exact defines_append.2 (Or.inr (hlabels m hm))
  have hdefinition := definition hnames hmembers (Or.inl rfl)
  simp only [bind_assoc] at hdefinition
  exact hdefinition

/-- All code is settled, and what it mentions is in `D`. -/
theorem composed (D : Label → Prop) :
    Composed (Value.In D) (Lays D (Settled fun _ => False)) where
  toStraight := straight D _
  comment := comment fun _ => .comments
  conjunction := conjunction
  disjunction := disjunction
  localFunction := localFunction
  define := define
  defineType := defineType

end Lays

/-! ## Programs -/

def DefinedOnce (code : List Line) (l : Label) : Prop :=
  ∃! place : Nat, ∃ indent, code[place]? = some ⟨indent, .label l⟩

/-- Local labels are told apart by their numbers, so none is defined twice. -/
theorem DefinedOnce.of_defines {l : Label} {n n' : Nat} (hfresh : FreshLabels n n' code)
    (hlocal : l.isLocal = true) (h : Defines code l) : DefinedOnce code l := by
  obtain ⟨⟨indent, _⟩, hline, rfl⟩ := h
  obtain ⟨place, hplace⟩ := List.mem_iff_getElem?.1 hline
  refine ⟨place, ⟨indent, hplace⟩, ?_⟩
  rintro place' ⟨indent', hplace'⟩
  have hfirst : place? code l = some place :=
    place?_eq_some hfresh.nodup hplace (Line.localLabel?_eq_some.2 ⟨rfl, hlocal⟩)
  have hfirst' : place? code l = some place' :=
    place?_eq_some hfresh.nodup hplace' (Line.localLabel?_eq_some.2 ⟨rfl, hlocal⟩)
  exact Option.some.inj (hfirst'.symm.trans hfirst)

/-- As many numbers below a bound as the bound says are all the numbers below it. -/
theorem exists_local_label {used : Nat} (hfresh : FreshLabels 0 used code)
    (hcount : used = (code.filterMap Line.localLabel?).length) {n : Nat} (hn : n < used) :
    ∃ stem, Defines code (.ofLocal stem n) := by
  obtain ⟨ks, hks, hnodup, hrange⟩ := hfresh.numbers
  have hsubset : ks.map Prod.snd ⊆ List.range used := by
    intro number hnumber
    obtain ⟨k, hk, rfl⟩ := List.mem_map.1 hnumber
    exact List.mem_range.2 (hrange k hk).2
  have hlength : (List.range used).length ≤ (ks.map Prod.snd).length := by
    rw [List.length_range, hcount, hks, List.length_map, List.length_map]
  have hperm := (List.subperm_of_subset hnodup hsubset).perm_of_length_le hlength
  obtain ⟨⟨stem, _⟩, hk, rfl⟩ := List.mem_map.1 (hperm.mem_iff.2 (List.mem_range.2 hn))
  have hmem : Label.ofLocal stem _ ∈ code.filterMap Line.localLabel? :=
    hks ▸ List.mem_map.2 ⟨_, hk, rfl⟩
  obtain ⟨line, hline, hlabel⟩ := List.mem_filterMap.1 hmem
  exact ⟨stem, line, hline, (Line.localLabel?_eq_some.1 hlabel).1⟩

/-- The labels of some code are sound, and the numbers below `used` are those of its local labels. -/
structure LabelsSound (code : List Line) (used : Nat) : Prop where
  /-- What is mentioned is defined. -/
  defined : ∀ l, Mentions code l → Defines code l
  /-- A local label that occurs in the code is defined exactly once. -/
  once : ∀ l, l.isLocal = true → Mentions code l ∨ Defines code l → DefinedOnce code l
  /-- All numbers have been given to a local label, which is defined. -/
  numbered : ∀ n < used, ∃ stem, DefinedOnce code (.ofLocal stem n)
  /-- Functions end in the code, one inside the other. -/
  balanced : Balanced code
  /-- A jump goes to a local label that is defined later, in the same functions. -/
  forward : ∀ place indent opcode operands,
    code[place]? = some ⟨indent, .instruction opcode operands⟩ → opcode.isJump = true →
      ∃ l target indent', operands.getLast? = some (.label l) ∧ l.isLocal = true ∧
        place < target ∧ code[target]? = some ⟨indent', .label l⟩ ∧
        functionsAround code target = functionsAround code place

/-- What a step lays down from the start is sound: all globals are its own, and so `D` can be taken
to be what the code defines. -/
theorem Lays.labelsSound {x : LowerM Unit} {room : Option Nat}
    (hx : ∀ D, Lays D (Settled fun _ => False) True (fun _ => True) x)
    (h : x { listing := { room } } = (.ok (), s')) :
    LabelsSound s'.listing.lines.reverse s'.listing.nextLabel ∧
      s'.listing.nextLabel = (s'.listing.lines.reverse.filterMap Line.localLabel?).length := by
  -- The code is not known yet here, but the listing that it ends up in is.
  obtain ⟨code, hsettled, ⟨⟨new, hemission, hnew⟩, hcount⟩, hrefers⟩ :=
    hx (Defines s'.listing.lines.reverse) _ _ s' h
  have hcode : s'.listing.lines.reverse = code := by
    rw [hemission.lines, List.append_nil, List.reverse_reverse]
  rw [hcode] at hrefers ⊢
  have hglobals : ∀ b ∈ s'.scopes.globals, Defines code b.2 := by
    rw [hemission.globals, List.append_nil]
    exact hnew
  have hdefined : ∀ l, Mentions code l → Defines code l :=
    (hrefers trivial ⟨fun _ hl => hl, hglobals⟩ ⟨by simp, by simp⟩).2.1
  have hfresh : FreshLabels 0 s'.listing.nextLabel code := hemission.labels
  have hused := hcount.trans (Nat.zero_add _)
  refine ⟨⟨hdefined, ?_, ?_, hsettled.balanced, ?_⟩, hused⟩
  · intro l hlocal hl
    exact .of_defines hfresh hlocal (hl.elim (hdefined l) id)
  · intro n hn
    obtain ⟨stem, hstem⟩ := exists_local_label hfresh hused hn
    exact ⟨stem, .of_defines hfresh (Label.isLocal_ofLocal _ _) hstem⟩
  · intro place indent opcode operands
    exact hsettled.lands.exists_target

/-- What is written to a sink without a limit is written in full. -/
theorem text_of_run {ts : List Term} (h : lowerProgram (Term.parts ts) {} = (.ok (), s')) :
    s'.listing.text = String.join (s'.listing.lines.reverse.map Line.render) := by
  have hparts := Truncates.closed.terms (fun _ _ => Truncates.throw _) ts
  obtain ⟨r, s₁, code, hfull, -, hfragment, -⟩ := Truncates.closed.lowerProgram hparts {} 0
  have hs' : s' = s₁.withRoom none := congrArg Prod.snd (h.symm.trans hfull)
  have hnone : s'.listing.fragment = [] := by
    rw [hs']
    exact hfragment
  have hempty : Listing.fragmentText [] = "" := by decide
  rw [Listing.text, hnone, hempty, String.append_empty]

/-- A text that can be compiled has normal forms that have code. -/
theorem exists_run_of_compile {source text : String}
    (h : (Compiler.compile source).result = .ok text) :
    ∃ (ts : List Term) (s' : Lowering), (Compiler.fold source).result = .ok ts ∧
      lowerProgram (Term.parts ts) {} = (.ok (), s') ∧ text = s'.listing.text := by
  cases hfold : (Compiler.fold source).result with
  | error cause => simp [Compiler.compile, hfold] at h
  | ok ts =>
      simp only [Compiler.compile, hfold] at h
      rcases hrun : lowerProgram (Term.parts ts) {} with ⟨_ | _, s'⟩
      · simp [Compiler.assemble, hrun] at h
      · refine ⟨ts, s', rfl, hrun, ?_⟩
        simpa [Compiler.assemble, hrun] using h.symm

/-- The lines of the code of a text. -/
def linesOf (source : String) : List Line :=
  match (Compiler.fold source).result with
  | .ok forms => (Lowering.lowerProgram (Term.parts forms) {}).2.listing.lines.reverse
  | .error _ => []

/-- The lines of a text are those that generating its code has left. -/
theorem linesOf_of_run {source : String} {forms : List Term}
    (hfold : (Compiler.fold source).result = .ok forms)
    (hrun : lowerProgram (Term.parts forms) {} = (.ok (), s')) :
    linesOf source = s'.listing.lines.reverse := by
  rw [linesOf, hfold]
  simp only [hrun]

/-- The labels of every program that has code are sound, however its forms are shared.  Of a text
that is compiled, the code is what its assembly prints, and its local labels are numbered without
gaps. -/
theorem program_labels_sound :
    (∀ (ts : List Term) (room : Option Nat) (s' : Lowering),
      lowerProgram (Term.parts ts) { listing := { room } } = (.ok (), s') →
        LabelsSound s'.listing.lines.reverse s'.listing.nextLabel) ∧
    (∀ (store : Store) (refs : List Ref) (room : Option Nat) (s' : Lowering),
      store.lowerProgram refs { listing := { room } } = (.ok (), s') →
        LabelsSound s'.listing.lines.reverse s'.listing.nextLabel) ∧
    ∀ source text, (Compiler.compile source).result = .ok text →
      text = String.join ((linesOf source).map Line.render) ∧
        LabelsSound (linesOf source) ((linesOf source).filterMap Line.localLabel?).length := by
  have hterms : ∀ (ts : List Term) (room : Option Nat) (s' : Lowering),
      lowerProgram (Term.parts ts) { listing := { room } } = (.ok (), s') →
        LabelsSound s'.listing.lines.reverse s'.listing.nextLabel ∧
          s'.listing.nextLabel = (s'.listing.lines.reverse.filterMap Line.localLabel?).length := by
    intro ts room s' h
    refine Lays.labelsSound (fun D => (Lays.composed D).lowerProgram ?_) h
    exact (Lays.composed D).terms (fun _ _ => Lays.throw _) ts
  refine ⟨fun ts room s' h => (hterms ts room s' h).1, ?_, ?_⟩
  · intro store refs room s' h
    refine (Lays.labelsSound (x := lowerProgram (store.parts room refs))
      (fun D => (Lays.composed D).lowerProgram ?_) h).1
    exact (Lays.composed D).cells (fun _ _ => Lays.throw _) store _ refs
  · intro source text h
    obtain ⟨ts, s', hfold, hrun, rfl⟩ := exists_run_of_compile h
    obtain ⟨hsound, hused⟩ := hterms ts none s' hrun
    rw [linesOf_of_run hfold hrun, ← hused]
    exact ⟨text_of_run hrun, hsound⟩

/-- A recursive function with one short-circuit form inside the other and a function literal inside
both, and a type whose method mentions its constructor. -/
def guardedCalls : String :=
  "(define f (func (a) (and a (or (f a) (func () 1)))))(def-type p (x) (+ x 1) (m (func () (f p))))"

/-- The code of `guardedCalls`, in which the inner `or` is left by a jump over the function literal;
and that of a function literal that calls itself, with four local labels. -/
theorem program_labels_sound_guardedCalls :
    ((∃ text, (Compiler.compile guardedCalls).result = .ok text ∧
        text = String.join ((linesOf guardedCalls).map Line.render)) ∧
      LabelsSound (linesOf guardedCalls) 6 ∧
      (linesOf guardedCalls)[10]? = some ⟨1, .instruction .jumpIfNonzero
        [.register ⟨33⟩, .label (.ofLocal "success" 3)]⟩ ∧
      ∃ target indent, 10 < target ∧
        (linesOf guardedCalls)[target]? = some ⟨indent, .label (.ofLocal "success" 3)⟩ ∧
        functionsAround (linesOf guardedCalls) target =
          functionsAround (linesOf guardedCalls) 10) ∧
    ∃ s', sharedFunction.lowerProgram [.cell 1] {} = (.ok (), s') ∧ s'.listing.nextLabel = 4 ∧
      LabelsSound s'.listing.lines.reverse 4 := by
  have hcompiled : (Compiler.compile guardedCalls).result.toBool = true := by decide +kernel
  have hused : ((linesOf guardedCalls).filterMap Line.localLabel?).length = 6 := by decide +kernel
  have hjump : (linesOf guardedCalls)[10]? = some ⟨1, .instruction .jumpIfNonzero
      [.register ⟨33⟩, .label (.ofLocal "success" 3)]⟩ := by decide +kernel
  have hrun : (sharedFunction.lowerProgram [.cell 1] {}).1 = .ok () := by decide +kernel
  have hnext : (sharedFunction.lowerProgram [.cell 1] {}).2.listing.nextLabel = 4 := by
    decide +kernel
  constructor
  · cases hresult : (Compiler.compile guardedCalls).result with
    | error cause =>
        rw [hresult] at hcompiled
        cases hcompiled
    | ok text =>
        obtain ⟨htext, hsound⟩ := program_labels_sound.2.2 guardedCalls text hresult
        rw [hused] at hsound
        obtain ⟨l, target, indent, hl, -, hlater, htarget, haround⟩ :=
          hsound.forward 10 1 _ _ hjump rfl
        obtain rfl : Label.ofLocal "success" 3 = l := by simpa using hl
        exact ⟨⟨text, rfl, htext⟩, hsound, hjump, target, indent, hlater, htarget, haround⟩
  · refine ⟨_, eq_ok_of_fst hrun, hnext, ?_⟩
    have hsound := program_labels_sound.2.1 sharedFunction [.cell 1] none _ (eq_ok_of_fst hrun)
    rw [hnext] at hsound
    exact hsound

end Lowering
end RegisterLisp
