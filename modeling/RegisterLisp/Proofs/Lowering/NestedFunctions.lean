import RegisterLisp.Proofs.Lowering.LabelSoundness
import RegisterLisp.Proofs.Lowering.Arrangement

/-!
# Functions inside of functions

A function literal is written where it occurs, with a jump over it.  A definition is written where
it occurs, too, but without a jump.  At the top level nothing else could be meant.  In the body of a
function, however, the body runs into the function that is defined there and does not get back, so
it is not true of all programs that functions are entered by calls only.

`Lowering.Writes S A Q x` says that a step `x` that succeeds has added code of the shape `S`, and
this is shown of the code of all terms with `Arranged` for the shape.  Which functions are named
depends on what a term declares: where no function declares a global in its body, all functions
inside of others are literals, and none is fallen into (`Lowering.KeptApart`).
-/

namespace RegisterLisp

namespace Term

mutual

/-- Whether a function in the term declares a global in its body. -/
def definesInside : Term → Bool
  | .atom _ => false
  | .quoted _ => false
  | .list items => anyDefinesInside items
  | .func _ body => !(declaredAll body).isEmpty || anyDefinesInside body
  | .typeDef _ _ ctor methods => definesInside ctor || methodsDefineInside methods

def anyDefinesInside : List Term → Bool
  | [] => false
  | t :: ts => definesInside t || anyDefinesInside ts

def methodsDefineInside : List (Symbol × Term) → Bool
  | [] => false
  | (_, t) :: ms => definesInside t || methodsDefineInside ms

end

end Term

namespace Lowering

open Steps

/-! ## Code of some shape -/

/-- A step that succeeds, under an assumption, has added code of the shape and returned what it
should. -/
def Writes (S : List Line → Prop) {α : Type} (A : Prop) (Q : α → Prop) (x : LowerM α) : Prop :=
  A → ∀ s a s', x s = (.ok a, s') →
    ∃ code, S code ∧ s'.listing.lines = code.reverse ++ s.listing.lines ∧ Q a

namespace Writes

variable {S S' S'' : List Line → Prop} {α β : Type} {A A' : Prop} {Q : α → Prop} {R : β → Prop}
  {inside outside : Prop}

/-- A weaker assumption is enough. -/
theorem imp {x : LowerM α} (himp : A' → A) (hx : Writes S A Q x) : Writes S A' Q x :=
  fun hA => hx (himp hA)

/-- A shape may be replaced by a wider one. -/
theorem mono {x : LowerM α} (hS : ∀ code, S code → S' code) (hx : Writes S A Q x) :
    Writes S' A Q x := by
  intro hA s a s' h
  obtain ⟨code, hcode, hlines, ha⟩ := hx hA s a s' h
  exact ⟨code, hS code hcode, hlines, ha⟩

/-- A step that writes nothing. -/
theorem silent {x : LowerM α} (hS : S [])
    (h : ∀ s a s', x s = (.ok a, s') → s'.listing.lines = s.listing.lines ∧ (A → Q a)) :
    Writes S A Q x := by
  intro hA s a s' hx
  obtain ⟨hlines, ha⟩ := h s a s' hx
  exact ⟨[], hS, hlines, ha hA⟩

theorem pure {a : α} (hS : S []) (ha : A → Q a) : Writes S A Q (pure a) := by
  refine silent hS fun s _ s' h => ?_
  cases h
  exact ⟨rfl, ha⟩

/-- The pieces that two steps have added are put together. -/
theorem bind {x : LowerM α} {f : α → LowerM β} (hx : Writes S A Q x)
    (hf : ∀ a, Writes S' (A ∧ Q a) R (f a))
    (hS : ∀ code code', S code → S' code' → S'' (code ++ code')) : Writes S'' A R (x >>= f) := by
  intro hA s b s' h
  obtain ⟨a, s₁, h₁, h₂⟩ := bind_eq_ok.1 h
  obtain ⟨code, hcode, hlines, ha⟩ := hx hA s a s₁ h₁
  obtain ⟨code', hcode', hlines', hb⟩ := hf a ⟨hA, ha⟩ s₁ b s' h₂
  refine ⟨code ++ code', hS code code' hcode hcode', ?_, hb⟩
  rw [hlines', hlines, List.reverse_append, List.append_assoc]

theorem fails {x : LowerM α} (h : ∀ s a s', x s ≠ (.ok a, s')) : Writes S A Q x :=
  fun _ s a s' hx => absurd hx (h s a s')

/-- A step that fails adds nothing that counts. -/
theorem throw (e : LowerError) : Writes S A Q (throw e) :=
  fails fun _ _ _ h => by cases h

theorem unsupported (text : Thunk String) : Writes S A Q (unsupported text) :=
  fails fun _ _ _ h => by cases h

/-- Registers around a step do not change the shape of its code. -/
theorem withRegisters {request : Reservation} {body : List Reg → LowerM α}
    (hbody : ∀ regs, Writes S A Q (body regs)) : Writes S A Q (withRegisters request body) := by
  intro hA s a s' h
  obtain ⟨regs, s₁, s₂, -, haround, hrun⟩ := withRegisters_eq_ok h
  obtain ⟨code, hcode, hlines, ha⟩ := hbody regs hA s₁ a s₂ hrun
  exact ⟨code, hcode, by rw [haround.listing', hlines, haround.listing], ha⟩

theorem withArguments {n : Nat} {body : List Reg → LowerM α}
    (hbody : ∀ regs, Writes S A Q (body regs)) : Writes S A Q (withArguments n body) := by
  intro hA s a s' h
  obtain ⟨s₁, s₂, haround, hrun, -⟩ := withArguments_eq_ok h
  obtain ⟨code, hcode, hlines, ha⟩ := hbody _ hA s₁ a s₂ hrun
  exact ⟨code, hcode, by rw [haround.listing', hlines, haround.listing], ha⟩

/-- The boundary of a function does not, either. -/
theorem insideFunction {step : LowerM α} (h : Writes S A Q step) :
    Writes S A Q (insideFunction step) := by
  intro hA s a s' hs
  rcases hstep : step
    { s with scopes := s.scopes.enter true, listing := s.listing.increaseIndent } with ⟨r, s₁⟩
  unfold Lowering.insideFunction at hs
  rw [hstep] at hs
  cases hs
  obtain ⟨code, hcode, hlines, ha⟩ := h hA _ a s₁ hstep
  exact ⟨code, hcode, hlines, ha⟩

/-- One instruction, under the assumption that it has the shape. -/
theorem emit {opcode : Opcode} {operands : List Operand}
    (hS : A → ∀ indent, S [⟨indent, .instruction opcode operands⟩]) :
    Writes S A (fun _ => True) (emit opcode operands) := by
  intro hA s _ s' h
  exact ⟨_, hS hA s.listing.indent, (wrote_of_emit h).lines, trivial⟩

/-- One label, likewise. -/
theorem defineLabel {l : Label} (hS : A → ∀ indent, S [⟨indent, .label l⟩]) :
    Writes S A (fun _ => True) (defineLabel l) := by
  intro hA s _ s' h
  exact ⟨_, hS hA s.listing.indent, (wrote_of_defineLabel h).lines, trivial⟩

theorem tell (hS : S []) (r : Record) : Writes S A (fun _ => True) (tell r) := by
  refine silent hS fun s _ s' h => ?_
  cases h
  exact ⟨rfl, fun _ => trivial⟩

theorem newLabel {stem : String} {Q : Label → Prop} (hS : S [])
    (h : ∀ n, Q (.ofLocal stem n)) : Writes S A Q (newLabel stem) := by
  refine silent hS fun s l s' hs => ?_
  obtain ⟨rfl, rfl⟩ := newLabel_eq_ok hs
  exact ⟨rfl, fun _ => h _⟩

/-- Comments, if all comment lines have the shape. -/
theorem comment (hS : ∀ code, (∀ line ∈ code, line.isComment = true) → S code) (text : String) :
    Writes S A (fun _ => True) (comment text) := by
  intro _ s u s' h
  obtain ⟨code, hcode, -, -, hcomments⟩ := Emission.of_comment h
  exact ⟨code, hS code hcomments, hcode.lines, trivial⟩

/-! ## Straight and branching code -/

/-- Straight code is arranged. -/
theorem straight (inside outside : Prop) :
    Straight (fun _ => True) (Writes (Arranged inside outside)) where
  register _ := trivial
  imp := imp
  pure ha := pure .nil ha
  bind hx hf := bind hx hf fun _ _ => .append
  live hf := by
    intro hA s a s' h
    obtain ⟨_, _, hget, h⟩ := bind_eq_ok.1 h
    cases hget
    exact hf _ hA s a s' h
  lookup name := by
    refine silent .nil fun s v s' h => ?_
    obtain ⟨_, _, hget, h⟩ := bind_eq_ok.1 h
    cases hget
    cases hname : s.scopes.lookup name false with
    | none =>
        rw [hname] at h
        cases h
    | some value =>
        rw [hname] at h
        cases h
        exact ⟨rfl, fun _ => trivial⟩
  unsupported text := unsupported text
  refused _ := throw _
  emit hopcode _ := emit fun _ _ => .line (.of_isPlain hopcode)
  withRegisters := withRegisters

/-- A jump to a label that is not that of a function. -/
theorem jump {opcode : Opcode} {operands : List Operand} {l : Label} (hret : opcode ≠ .ret)
    (honly : ∀ l', .label l' ∈ operands → l' = l) :
    Writes (Arranged inside outside) (l.isFunction = false) (fun _ => True)
      (Lowering.emit opcode operands) :=
  emit fun hl _ => .line ⟨hret, fun _ l' hl' => honly l' hl' ▸ hl⟩

/-- The jump of an operand of `and` is an inner line, since its label is not that of a function. -/
theorem conjunct {out : Reg} {failure : Label} {operand : LowerM Source}
    (h : Writes (Arranged inside outside) True (Source.Good fun _ => True) operand) :
    Writes (Arranged inside outside) (failure.isFunction = false) (fun _ => True)
      (conjunct out failure operand) := by
  have hP := straight inside outside
  refine hP.bind (hP.anyhow h) fun source => ?_
  refine hP.bind (hP.putInto out And.right) fun _ => hP.imp (fun hA => hA.1.1) ?_
  rcases source with i | (r | l)
  · exact jump (by simp) (by simp)
  · exact jump (by simp) (by simp)
  · exact hP.pure fun _ => trivial

/-- So is the jump of an operand of `or`. -/
theorem disjunct {out : Reg} {success : Label} {operand : LowerM Source}
    (h : Writes (Arranged inside outside) True (Source.Good fun _ => True) operand) :
    Writes (Arranged inside outside) (success.isFunction = false) (fun _ => True)
      (disjunct out success operand) := by
  have hP := straight inside outside
  refine hP.bind (hP.anyhow h) fun source => ?_
  refine hP.bind (hP.putInto out And.right) fun _ => hP.imp (fun hA => hA.1.1) ?_
  rcases source with i | (r | l)
  · exact jump (by simp) (by simp)
  · exact jump (by simp) (by simp)
  · exact jump (by simp) (by simp)

theorem shortCircuitEnd (out : Reg) {failure success : Label} :
    Writes (Arranged inside outside)
      (failure.isFunction = false ∧ success.isFunction = false) (fun _ => True)
      (shortCircuitEnd out failure success) := by
  have hP := straight inside outside
  refine hP.bind (defineLabel fun hA _ => .line hA.1) fun _ => ?_
  refine hP.bind (hP.emit rfl (by simp)) fun _ => ?_
  exact hP.bind (defineLabel fun hA _ => .line hA.1.1.2) fun _ => hP.pure fun _ => trivial

/-- A short-circuit form: its labels are those of no function. -/
theorem shortCircuit {out : Reg} (operands : Label → Label → LowerM Unit)
    (h : ∀ failure success, Writes (Arranged inside outside)
      (failure.isFunction = false ∧ success.isFunction = false) (fun _ => True)
        (operands failure success)) :
    Writes (Arranged inside outside) True (fun _ => True)
      (Lowering.newLabel "failure" >>= fun failure => Lowering.newLabel "success" >>= fun success =>
        operands failure success >>= fun _ =>
          Lowering.shortCircuitEnd out failure success) := by
  have hP := straight inside outside
  have hnew : ∀ {A : Prop} {stem : String},
      (∀ n, (Label.ofLocal stem n).isFunction = false) →
        Writes (Arranged inside outside) A (fun l => l.isFunction = false)
          (Lowering.newLabel stem) := fun h => newLabel .nil h
  refine hP.bind (hnew Label.isFunction_failure) fun failure => ?_
  refine hP.bind (hnew Label.isFunction_success) fun success => ?_
  refine hP.bind (hP.imp (fun hA => ⟨hA.1.2, hA.2⟩) (h failure success)) fun _ => ?_
  exact hP.imp (fun hA => ⟨hA.1.1.2, hA.1.2⟩) (shortCircuitEnd out)

/-- The code of short circuits is arranged. -/
theorem branching (inside outside : Prop) :
    Branching (fun _ => True) (Writes (Arranged inside outside)) where
  toStraight := straight inside outside
  conjunction {operands} h := by
    have hP := straight inside outside
    unfold Lowering.conjunction
    split
    · exact hP.load _
    · refine hP.withTemporary fun out => ?_
      -- A jump over the failure ends the code of the operands.
      simp only [← bind_assoc (operands.forM _)]
      refine shortCircuit (fun failure success => operands.forM (Lowering.conjunct out failure) >>=
        fun _ => Lowering.emit .jump [.label success]) fun failure success => ?_
      refine hP.bind (hP.forM fun operand hmem => ?_) fun _ => ?_
      · exact hP.imp And.left (conjunct (h operand hmem))
      · exact hP.imp (fun hA => hA.1.2) (jump (by simp) (by simp))
  disjunction {operands} h := by
    have hP := straight inside outside
    unfold Lowering.disjunction
    split
    · exact hP.load _
    · refine hP.withTemporary fun out => shortCircuit (fun _ success =>
        operands.forM (Lowering.disjunct out success)) fun failure success => ?_
      exact hP.forM fun operand hmem => hP.imp And.right (disjunct (h operand hmem))

/-! ## Functions -/

theorem bindParams : ∀ (params : List Symbol) (regs : List Reg),
    Writes (Arranged inside outside) A (fun _ => True) (bindParams params regs)
  | [], _ => pure .nil fun _ => trivial
  | _ :: _, [] => pure .nil fun _ => trivial
  | p :: params, r :: regs => by
      have hbind : Writes (Arranged inside outside) A (fun _ => True)
          (Lowering.bind p (.register r)) := by
        refine silent .nil fun s _ s' h => ?_
        cases h
        exact ⟨rfl, fun _ => trivial⟩
      exact bind hbind (fun _ => (bindParams params regs).imp And.left) fun _ _ => .append

/-- The code of forms in sequence is arranged if that of each is. -/
theorem inSequence :
    ∀ {steps : List (LowerM Value)} {value : Value},
      (∀ step ∈ steps, Writes (Arranged inside outside) True (fun _ => True) step) →
        Writes (Arranged inside outside) A (fun _ => True) (inSequence value steps)
  | [], _, _ => pure .nil fun _ => trivial
  | step :: steps, _, h => by
      have hP := straight inside outside
      refine hP.bind (hP.anyhow (h step (by simp))) fun v => ?_
      have hsteps : ∀ step' ∈ steps, Writes (Arranged inside outside) True (fun _ => True) step' :=
        fun step' hmem => h step' (by simp [hmem])
      exact (inSequence hsteps).imp And.left

def IsFunctionBody (inside : Prop) (code : List Line) : Prop :=
  ∃ stop operands body comments, Arranged inside inside body ∧
    (∀ line ∈ comments, line.isComment = true) ∧
    code = body ++ ⟨stop, .instruction .ret operands⟩ :: comments

/-- The end of a function returns its result. -/
theorem returning (v : Value) (text : String) :
    Writes (fun code => ∃ stop operands comments,
        code = ⟨stop, .instruction .ret operands⟩ :: comments ∧
          ∀ line ∈ comments, line.isComment = true) A (fun _ => True)
      (Lowering.emit .ret [Operand.ofValue v] >>= fun _ => Lowering.comment text) := by
  refine bind (emit (S := fun code => ∃ stop, code = [⟨stop, .instruction .ret _⟩])
    fun _ stop => ⟨stop, rfl⟩) (fun _ => comment (fun _ h => h) _) ?_
  rintro _ comments ⟨stop, rfl⟩ hcomments
  exact ⟨stop, _, comments, rfl, hcomments⟩

/-- What comes behind the label of a function is a body. -/
theorem functionBody {label : Label} {f : Function}
    (h : ∀ step ∈ f.body, Writes (Arranged inside inside) True (fun _ => True) step) :
    Writes (IsFunctionBody inside) A (fun _ => True) (functionBody label f) := by
  -- Whatever stands before the body belongs to it.
  have hbefore : ∀ code code', Arranged inside inside code → IsFunctionBody inside code' →
      IsFunctionBody inside (code ++ code') := by
    rintro code _ hcode ⟨stop, operands, body, comments, hbody, hcomments, rfl⟩
    exact ⟨stop, operands, code ++ body, comments, hcode.append hbody, hcomments,
      (List.append_assoc _ _ _).symm⟩
  refine bind (tell .nil _) (fun _ => ?_) hbefore
  refine insideFunction (withArguments fun args => ?_)
  refine bind (bindParams _ _) (fun _ => ?_) hbefore
  refine bind (inSequence h) (fun v => returning v _) ?_
  rintro body _ hbody ⟨stop, operands, comments, rfl, hcomments⟩
  exact ⟨stop, operands, body, comments, hbody, hcomments, rfl⟩

/-- A function starts with its label. -/
theorem functionAt {label : Label} {f : Function}
    (h : ∀ step ∈ f.body, Writes (Arranged inside inside) True (fun _ => True) step) :
    Writes (fun code => ∃ start body, IsFunctionBody inside body ∧
      code = ⟨start, .label label⟩ :: body) A (fun _ => True) (functionAt label f) := by
  rw [functionAt_eq]
  refine bind (defineLabel (S := fun code => ∃ start, code = [⟨start, .label label⟩])
    fun _ start => ⟨start, rfl⟩) (fun _ => functionBody h) ?_
  rintro _ body ⟨start, rfl⟩ hbody
  exact ⟨start, body, hbody, rfl⟩

/-- A named function has no jump in front of it. -/
theorem namedFunction {label : Label} {f : Function} (houtside : outside)
    (hlabel : label.isLocal = false)
    (h : ∀ step ∈ f.body, Writes (Arranged inside inside) True (fun _ => True) step) :
    Writes (Arranged inside outside) A (fun _ => True) (Lowering.functionAt label f) := by
  refine (functionAt h).mono ?_
  rintro _ ⟨start, _, ⟨stop, operands, body, comments, hbody, hcomments, rfl⟩, rfl⟩
  exact .named houtside hlabel hbody hcomments

/-- A literal is arranged wherever it stands, because it is jumped over. -/
theorem localFunction {f : Function}
    (h : ∀ step ∈ f.body, Writes (Arranged inside inside) True (fun _ => True) step) :
    Writes (Arranged inside outside) A (fun _ => True) (localFunction f) := by
  intro _ s v s' hs
  obtain ⟨s₂, s₃, s₄, rfl, hjump, hfunction, hskip, -⟩ := localFunction_eq_ok hs
  obtain ⟨_, ⟨start, _, ⟨stop, operands, body, comments, hbody, hcomments, rfl⟩, rfl⟩, hlines, -⟩ :=
    functionAt h trivial s₃ _ s₄ hfunction
  have hcode : ∀ before behind, Arranged inside outside
      (⟨before, .instruction .jump [.label (.ofLocal "skip" (s.listing.nextLabel + 1))]⟩ ::
        (functionLines start stop (.ofLocal "anonfunc" s.listing.nextLabel) operands body
          comments ++ [⟨behind, .label (.ofLocal "skip" (s.listing.nextLabel + 1))⟩])) := fun _ _ =>
    .literal (Label.isFunction_anonfunc _) (Label.isLocal_ofLocal _ _) (Label.isFunction_skip _)
      hbody hcomments
  -- The lines of a listing are kept last first.
  refine ⟨_, hcode s.listing.indent s₄.listing.indent, ?_, trivial⟩
  rw [hskip.lines, hlines, hjump.lines]
  simp [functionLines]

/-! ## Definitions -/

theorem bindGlobal (name : Symbol) (label : Label) :
    Writes (Arranged inside outside) A (fun _ => True) (bindGlobal name label) := by
  refine silent .nil fun s _ s' h => ?_
  cases h
  exact ⟨rfl, fun _ => trivial⟩

/-- A global function is arranged only where named functions are allowed. -/
theorem define {name : Symbol} {f : Function} (houtside : outside)
    (h : ∀ step ∈ f.body, Writes (Arranged inside inside) True (fun _ => True) step) :
    Writes (Arranged inside outside) A (fun _ => True) (define name f) := by
  have hP := straight inside outside
  refine hP.bind (bindGlobal _ _) fun _ => ?_
  refine hP.bind (namedFunction houtside (Label.isLocal_ofGlobal _) h) fun _ => ?_
  exact hP.pure fun _ => trivial

/-- So is a constructor or a method. -/
theorem member {label : Label} {p : Part} (houtside : outside) (hlabel : label.isLocal = false)
    (h : ∀ f, p.function? = some f →
      ∀ step ∈ f.body, Writes (Arranged inside inside) True (fun _ => True) step) :
    Writes (Arranged inside outside) A (fun _ => True) (member label p) := by
  unfold Lowering.member
  split
  · rename_i f hf
    exact namedFunction houtside hlabel (h f hf)
  · exact unsupported _

/-- The members of a type are named functions, one after the other. -/
theorem defineType {name : Symbol} {ctor : Part} {methods : List (Symbol × Part)}
    (houtside : outside)
    (hctor : ∀ f, ctor.function? = some f →
      ∀ step ∈ f.body, Writes (Arranged inside inside) True (fun _ => True) step)
    (hmethods : ∀ m ∈ methods, ∀ f, m.2.function? = some f →
      ∀ step ∈ f.body, Writes (Arranged inside inside) True (fun _ => True) step) :
    Writes (Arranged inside outside) A (fun _ => True) (defineType name ctor methods) := by
  have hP := straight inside outside
  refine hP.bind (bindGlobal _ _) fun _ => ?_
  refine hP.bind (hP.forM fun m _ => bindGlobal _ _) fun _ => ?_
  refine hP.bind (member houtside (Label.isLocal_ofGlobal _) hctor) fun _ => ?_
  refine hP.bind (hP.forM fun m hm => ?_) fun _ => hP.pure fun _ => trivial
  exact member houtside (Label.isLocal_ofGlobal _) (hmethods m hm)

end Writes
end Lowering

/-! ## Terms -/

namespace Term

open Lowering

variable {inside outside : Prop}

/-- The code of the term is arranged, with named functions in it only where the term declares a
global, and so is the body of the function that it is. -/
structure Arranges (inside : Prop) (t : Term) : Prop where
  code : ∀ {outside : Prop}, outside ∨ t.declared = [] →
    Writes (Arranged inside outside) True (fun _ => True) t.part.code
  function : ∀ f, t.part.function? = some f →
    ∀ step ∈ f.body, Writes (Arranged inside inside) True (fun _ => True) step

theorem declared_eq_nil_of_mem {t : Term} {ts : List Term} (h : declaredAll ts = [])
    (ht : t ∈ ts) : t.declared = [] := by
  induction ts with
  | nil => cases ht
  | cons t' ts ih =>
      rw [declaredAll, List.append_eq_nil_iff] at h
      rcases List.mem_cons.1 ht with rfl | ht
      · exact h.2
      · exact ih h.1 ht

/-- The code of terms that may declare globals only where named functions are allowed. -/
theorem writes_code_of_mem {ts : List Term} (h : ∀ t ∈ ts, t.Arranges inside)
    (hdeclared : outside ∨ declaredAll ts = []) {p : Part} (hp : p ∈ parts ts) :
    Writes (Arranged inside outside) True (fun _ => True) p.code := by
  rw [parts_eq_map] at hp
  obtain ⟨t, ht, rfl⟩ := List.mem_map.1 hp
  exact (h t ht).code (hdeclared.imp_right fun hnone => declared_eq_nil_of_mem hnone ht)

/-- A list headed by `define` has code only if it declares a global. -/
theorem writes_lowerDefine {text : Thunk String} {args : List Term}
    (h : ∀ t ∈ args, t.Arranges inside)
    (hname : outside ∨ definedName (.atom (.symbol Symbol.define) :: args) = []) :
    Writes (Arranged inside outside) True (fun _ => True) (lowerDefine text (parts args)) := by
  match args with
  | [] => exact .unsupported _
  | [_] => exact .unsupported _
  | _ :: _ :: _ :: _ => exact .unsupported _
  | [name, value] =>
      have hparts : parts [name, value] = [name.part, value.part] := rfl
      rw [hparts, lowerDefine, symbol?_part]
      cases hsymbol : name.view.symbol? with
      | none => exact .unsupported _
      | some s =>
          cases hf : value.part.function? with
          | none => exact .unsupported _
          | some f =>
              -- The name is declared, so this is a place for named functions.
              have houtside : outside := by
                refine hname.resolve_right fun hnone => ?_
                simp [definedName, isHeadedBy_cons_symbol, hsymbol] at hnone
              exact .define houtside ((h value (by simp)).function f hf)

/-- A list is arranged if its items are and it declares nothing where nothing may be declared. -/
theorem writes_lowerList {text : Thunk String} {items : List Term}
    (h : ∀ t ∈ items, t.Arranges inside) (hdeclared : outside ∨ declared (.list items) = []) :
    Writes (Arranged inside outside) True (fun _ => True) (lowerList text (parts items)) := by
  cases items with
  | nil => exact .unsupported _
  | cons head args =>
      by_cases hnop : head.view.symbol? = some Symbol.nop
      · -- A nop has no code, whatever it declares.
        rw [parts, Lowering.lowerList, symbol?_part, hnop]
        exact .pure .nil fun _ => trivial
      · have hheaded : isHeadedBy Symbol.nop (head :: args) = false := by
          simpa [isHeadedBy] using hnop
        rw [declared, hheaded, if_neg Bool.false_ne_true, List.append_eq_nil_iff] at hdeclared
        refine (Writes.branching inside outside).lowerList ?_ ?_ ?_
        · exact fun p hp => writes_code_of_mem h (hdeclared.imp_right And.left) hp
        · -- Only here a named function can be written.
          rintro _ _ hparts hdefine
          cases hparts
          rw [symbol?_part] at hdefine
          obtain rfl := eq_symbol_of_view hdefine
          exact writes_lowerDefine (fun t ht => h t (by simp [ht])) (hdeclared.imp_right And.right)
        · exact fun _ _ _ _ _ _ _ => Or.inr fun _ => .throw _

/-! ### All terms -/

mutual

/-- The code of every term is arranged.  Unless named functions are allowed inside of functions, no
function in the term may declare a global. -/
theorem arranges : ∀ t : Term, inside ∨ t.definesInside = false → t.Arranges inside
  | .atom a, _ => by
      have hatom := (Writes.straight inside inside).ofAtom (A := True) a
      exact ⟨fun {outside} _ => ((Writes.straight inside outside).ofAtom a).code, hatom.function⟩
  | .quoted inner, _ => ⟨fun _ => .unsupported _, fun _ h => nomatch h⟩
  | .list items, h => by
      rw [definesInside] at h
      exact ⟨writes_lowerList (arranges_of_mem items h), fun _ hf => nomatch hf⟩
  | .func params body, h => by
      rw [definesInside, Bool.or_eq_false_iff] at h
      have hbody := arranges_of_mem body (h.imp_right And.right)
      -- What the body declares is named inside of this function.
      have hdeclared : inside ∨ declaredAll body = [] := h.imp_right fun h => by simpa using h.1
      have hsteps : ∀ step ∈ (parts body).map Part.code,
          Writes (Arranged inside inside) True (fun _ => True) step := by
        intro step hstep
        obtain ⟨p, hp, rfl⟩ := List.mem_map.1 hstep
        exact writes_code_of_mem hbody hdeclared hp
      refine ⟨fun _ => .localFunction hsteps, ?_⟩
      intro f hf
      cases hf
      exact hsteps
  | .typeDef name fields ctor methods, h => by
      rw [definesInside, Bool.or_eq_false_iff] at h
      have hctor := arranges ctor (h.imp_right And.left)
      have hmethods := arranges_of_mem_methods methods (h.imp_right And.right)
      refine ⟨fun hdeclared => ?_, fun _ hf => nomatch hf⟩
      -- The name of the type is declared at least.
      have houtside := hdeclared.resolve_right (by simp [declared])
      exact .defineType houtside hctor.function hmethods

/-- Every one of several terms is arranged if none of them declares anything inside of a
function. -/
theorem arranges_of_mem : ∀ (ts : List Term), inside ∨ anyDefinesInside ts = false →
    ∀ t ∈ ts, t.Arranges inside
  | [], _, _, ht => nomatch ht
  | t :: ts, h, t', ht => by
      rw [anyDefinesInside, Bool.or_eq_false_iff] at h
      rcases List.mem_cons.1 ht with heq | ht
      · rw [heq]
        exact arranges t (h.imp_right And.left)
      · exact arranges_of_mem ts (h.imp_right And.right) t' ht

theorem arranges_of_mem_methods : ∀ (ms : List (Symbol × Term)),
    inside ∨ methodsDefineInside ms = false → ∀ m ∈ methodParts ms, ∀ f, m.2.function? = some f →
      ∀ step ∈ f.body, Writes (Arranged inside inside) True (fun _ => True) step
  | [], _, _, hm => nomatch hm
  | (_, t) :: ms, h, m, hm => by
      rw [methodsDefineInside, Bool.or_eq_false_iff] at h
      rcases List.mem_cons.1 hm with rfl | hm
      · exact (arranges t (h.imp_right And.left)).function
      · exact arranges_of_mem_methods ms (h.imp_right And.right) m hm

end

end Term

/-! ## Programs -/

namespace Lowering

/-- The code of a program: its forms stand one after the other, outside of all functions. -/
theorem Writes.lowerProgram {inside : Prop} : ∀ {ts : List Term},
    (∀ t ∈ ts, t.Arranges inside) →
      Writes (Arranged inside True) True (fun _ => True) (lowerProgram (Term.parts ts))
  | [], _ => .pure .nil fun _ => trivial
  | t :: ts, h => by
      have hP := Writes.straight inside True
      refine hP.bind (.comment (fun _ => .comments) _) fun _ => ?_
      refine hP.bind (hP.anyhow ((h t (by simp)).code (Or.inl trivial))) fun _ => hP.anyhow ?_
      exact lowerProgram fun t' ht' => h t' (by simp [ht'])

section Runs

variable {forms : List Term} {s' : Lowering}

/-- The code of a program is arranged. -/
theorem arranged_of_run {inside : Prop} (h : lowerProgram (Term.parts forms) {} = (.ok (), s'))
    (hforms : inside ∨ Term.anyDefinesInside forms = false) :
    Arranged inside True s'.listing.lines.reverse := by
  obtain ⟨code, hcode, hlines, -⟩ :=
    Writes.lowerProgram (Term.arranges_of_mem forms hforms) trivial _ _ _ h
  rw [hlines]
  simpa using hcode

/-- Its jumps land, and its local labels are told apart by their numbers. -/
theorem lands_of_run (h : lowerProgram (Term.parts forms) {} = (.ok (), s')) :
    Lands (fun _ => False) s'.listing.lines.reverse ∧
      FreshLabels 0 s'.listing.nextLabel s'.listing.lines.reverse := by
  -- Which labels count as known does not matter for this.
  have hP := Lays.composed fun _ => True
  obtain ⟨code, hsettled, ⟨⟨_, hemission, -⟩, -⟩, -⟩ :=
    hP.lowerProgram (hP.terms (fun _ _ => Lays.throw _) forms) _ _ _ h
  have hcode : s'.listing.lines.reverse = code := by
    rw [hemission.lines, List.append_nil, List.reverse_reverse]
  rw [hcode]
  exact ⟨hsettled.lands, hemission.labels⟩

end Runs

/-- No function is fallen into from the body of another one. -/
structure KeptApart (code : List Line) : Prop where
  /-- In front of a function inside of another one stands a jump to behind its end. -/
  jumpedOver : ∀ place, StartsFunction code place → functionsAround code place ≠ [] →
    JumpedOver code place
  /-- A machine that runs the body of a function stays in it. -/
  confined : ∀ {W : Type} (M : Machine W) (m m' : Machine.State W) (around : List Nat),
    around ≠ [] → LiesIn code around m.pc → Machine.Reaches M code m m' →
      LiesIn code around m'.pc

/-- Code whose named functions are all outermost keeps its functions apart. -/
theorem KeptApart.of_arranged {code : List Line} {n : Nat} (h : Arranged False True code)
    (hlands : Lands (fun _ => False) code) (hfresh : FreshLabels 0 n code) : KeptApart code := by
  have hnamed : ∀ place indent l, code[place]? = some ⟨indent, .label l⟩ →
      functionsAround code place ≠ [] → l.isLocal = true := by
    intro place indent l hline haround
    by_contra hlocal
    exact haround ((h.outermost not_false hline (by simpa using hlocal)).2 0 [])
  refine ⟨?_, ?_⟩
  · rintro place ⟨indent, l, hline, hl⟩ haround
    exact h.jumpedOver hline hl (hnamed place indent l hline haround)
  · intro W M m m' around haround hm hreaches
    refine h.liesIn_of_reaches hlands hfresh (fun place indent l hline heq => ?_) hreaches hm
    exact hnamed place indent l hline (heq ▸ haround)

/-- In the code of every text that has some, function literals are jumped over, and a machine does
not leave the body of a function in which no named function stands.  Where no function declares a
global in its body, no function is fallen into from another one. -/
theorem literals_are_jumped_over {source text : String}
    (h : (Compiler.compile source).result = .ok text) :
    text = String.join ((linesOf source).map Line.render) ∧
    (∀ place indent l, (linesOf source)[place]? = some ⟨indent, .label l⟩ →
      l.isFunction = true → l.isLocal = true → JumpedOver (linesOf source) place) ∧
    (∀ around, (∀ place indent l, (linesOf source)[place]? = some ⟨indent, .label l⟩ →
        functionsAround (linesOf source) place = around → l.isLocal = true) →
      ∀ {W : Type} (M : Machine W) (m m' : Machine.State W), LiesIn (linesOf source) around m.pc →
        Machine.Reaches M (linesOf source) m m' → LiesIn (linesOf source) around m'.pc) ∧
    ∃ forms, (Compiler.fold source).result = .ok forms ∧
      (Term.anyDefinesInside forms = false → KeptApart (linesOf source)) := by
  obtain ⟨forms, s', hfold, hrun, rfl⟩ := exists_run_of_compile h
  rw [linesOf_of_run hfold hrun]
  obtain ⟨hlands, hfresh⟩ := lands_of_run hrun
  -- Nothing is asked of the forms where named functions are allowed inside of functions.
  have harranged : Arranged True True s'.listing.lines.reverse :=
    arranged_of_run hrun (Or.inl trivial)
  refine ⟨text_of_run hrun, ?_, ?_, forms, hfold, ?_⟩
  · intro place indent l hline hl hlocal
    exact harranged.jumpedOver hline hl hlocal
  · intro around hnamed W M m m' hm hreaches
    exact harranged.liesIn_of_reaches hlands hfresh hnamed hreaches hm
  · intro hforms
    exact .of_arranged (arranged_of_run hrun (Or.inr hforms)) hlands hfresh

/-- The function literal in `guardedCalls`, which stands inside of a function. -/
theorem literals_are_jumped_over_guardedCalls :
    (∃ text, (Compiler.compile guardedCalls).result = .ok text) ∧
      StartsFunction (linesOf guardedCalls) 12 ∧ functionsAround (linesOf guardedCalls) 12 = [1] ∧
      JumpedOver (linesOf guardedCalls) 12 ∧ KeptApart (linesOf guardedCalls) := by
  have hcompiled : (Compiler.compile guardedCalls).result.toBool = true := by decide +kernel
  have hdefines : (Compiler.fold guardedCalls).result.toOption.map Term.anyDefinesInside =
      some false := by decide +kernel
  have hline : (linesOf guardedCalls)[12]? = some ⟨1, .label (.ofLocal "anonfunc" 4)⟩ := by
    decide +kernel
  cases hresult : (Compiler.compile guardedCalls).result with
  | error cause =>
      rw [hresult] at hcompiled
      cases hcompiled
  | ok text =>
      obtain ⟨-, hliterals, -, forms, hfold, happart⟩ := literals_are_jumped_over hresult
      rw [hfold] at hdefines
      refine ⟨⟨text, rfl⟩, ⟨_, _, hline, Label.isFunction_anonfunc 4⟩, by decide +kernel, ?_, ?_⟩
      · exact hliterals 12 _ _ hline (Label.isFunction_anonfunc 4) (Label.isLocal_ofLocal _ _)
      · exact happart (Option.some.inj hdefines)

/-- A definition inside of a function. -/
def nestedDefinition : String :=
  "(define f (func () 2 (define g (func () 1)) (g)))"

def nestedLines (out : Reg) : List Line :=
  [⟨0, .comment nestedDefinition⟩,
    ⟨0, .label (.ofGlobal "f")⟩,
    ⟨1, .instruction .load [.register out, .immediate (.number 2.0)]⟩,
    ⟨1, .label (.ofGlobal "g")⟩,
    ⟨2, .instruction .load [.register out, .immediate (.number 1.0)]⟩,
    ⟨2, .instruction .ret [.register out]⟩,
    ⟨2, .comment "end of function .g"⟩,
    ⟨1, .instruction .call [.label (.ofGlobal "g")]⟩,
    ⟨1, .instruction .ret [.register Reg.result]⟩,
    ⟨1, .comment "end of function .f"⟩]

/-- Every machine that runs `f` falls into `g`, at line 3, and ends at the return of `g`.  It does
not get to the call of `g`. -/
theorem nested_definition_is_fallen_into :
    linesOf nestedDefinition = nestedLines ⟨32⟩ ∧
    (∃ text, (Compiler.compile nestedDefinition).result = .ok text ∧
      text = String.join ((nestedLines ⟨32⟩).map Line.render)) ∧
    StartsFunction (nestedLines ⟨32⟩) 3 ∧ functionsAround (nestedLines ⟨32⟩) 3 = [1] ∧
    ¬ JumpedOver (nestedLines ⟨32⟩) 3 ∧ ¬ KeptApart (nestedLines ⟨32⟩) ∧
    ∀ {W : Type} (M : Machine W) (m : Machine.State W), m.pc = 1 →
      ∃ m', Machine.Reaches M (nestedLines ⟨32⟩) m m' ∧ m'.pc = 5 ∧ m'.calls = m.calls ∧
        m'.step M (nestedLines ⟨32⟩) = none := by
  have hcompiled : (Compiler.compile nestedDefinition).result.toOption =
      some (String.join ((nestedLines ⟨32⟩).map Line.render)) := by decide +kernel
  have hstarts : StartsFunction (nestedLines ⟨32⟩) 3 :=
    ⟨1, .ofGlobal "g", rfl, Label.isFunction_of_not_isLocal (Label.isLocal_ofGlobal _)⟩
  have haround : functionsAround (nestedLines ⟨32⟩) 3 = [1] := by decide +kernel
  -- The line before is a load.
  have hnot : ¬ JumpedOver (nestedLines ⟨32⟩) 3 := by
    intro hover
    obtain ⟨_, _, hbefore⟩ := hover.line_before
    cases hbefore
  refine ⟨by decide +kernel, ?_, hstarts, haround, hnot, ?_, ?_⟩
  · cases hresult : (Compiler.compile nestedDefinition).result with
    | error cause =>
        rw [hresult] at hcompiled
        cases hcompiled
    | ok text =>
        rw [hresult] at hcompiled
        exact ⟨text, rfl, Option.some.inj hcompiled⟩
  · intro happart
    exact hnot (happart.jumpedOver 3 hstarts (by simp [haround]))
  · -- The label of `f`, a load, the label of `g` and another load are run.
    rintro W M ⟨regs, stack, _, calls⟩ rfl
    exact ⟨_, .head rfl (.head rfl (.head rfl (.head rfl .refl))), rfl, rfl, rfl⟩

end Lowering
end RegisterLisp
