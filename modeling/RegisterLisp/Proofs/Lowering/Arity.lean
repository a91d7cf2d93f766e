import RegisterLisp.Compiler
import RegisterLisp.Proofs.Lowering.Pieces
import RegisterLisp.Proofs.Lowering.TermEmission
import RegisterLisp.Proofs.Normalization

/-!
# Normal programs have operators with the right number of operands

Folding and lowering both refuse an operator form with a wrong number of operands.  Each goes
through the operators in its own order; they refuse the same forms in the same words, but for a form
without operands that folding replaces by a unit (`refuses_as_folding`).

A form that folding leaves as it is has the right number, and in a normal term every list outside of
quotes is such a form: also those in the bodies of functions, constructors and methods, and those
whose head or operands are what is left of other forms.  So lowering a normal program never fails
for this reason.
-/

namespace RegisterLisp

open Reduction
open Term (access)

namespace Lowering

open Steps

/-- Whatever the step fails with, it is not a wrong number of operands. -/
def AvoidsArity {α : Type} (step : LowerM α) : Prop :=
  ∀ s op mismatch, (step s).1 ≠ .error (.arity op mismatch)

namespace AvoidsArity

variable {α β : Type}

theorem pure (a : α) : AvoidsArity (pure a : LowerM α) := by
  intro s op mismatch h
  cases h

/-- A wrong number of operands is avoided by a step after another if both avoid it. -/
theorem bind {x : LowerM α} {f : α → LowerM β} (hx : AvoidsArity x)
    (hf : ∀ a, AvoidsArity (f a)) : AvoidsArity (x >>= f) := by
  intro s op mismatch h
  have hxs := hx s op mismatch
  rw [bind_apply] at h
  rcases hstep : x s with ⟨cause | a, s'⟩
  · rw [hstep] at h hxs
    cases h
    exact hxs rfl
  · rw [hstep] at h
    exact hf a s' op mismatch h

/-- The property goes through sequences of steps. -/
theorem sequential : Sequential (@AvoidsArity) :=
  ⟨AvoidsArity.pure, AvoidsArity.bind⟩

/-- Writing fails only because of the sink. -/
theorem writing (step : Listing.WriteM α) : AvoidsArity (writing step) := by
  intro s op mismatch h
  unfold Lowering.writing at h
  split at h
  · cases h
  · cases h

theorem get : AvoidsArity (get : LowerM Lowering) := by
  intro s op mismatch h
  cases h

/-- An unknown symbol is an error of another kind. -/
theorem lookup (name : Symbol) : AvoidsArity (lookup name) := by
  refine AvoidsArity.bind get fun s => ?_
  cases s.scopes.lookup name false with
  | none => exact fun _ _ _ h => nomatch h
  | some value => exact AvoidsArity.pure value

theorem bindParams :
    ∀ (params : List Symbol) (regs : List Reg), AvoidsArity (bindParams params regs)
  | [], _ => AvoidsArity.pure _
  | _ :: _, [] => AvoidsArity.pure _
  | p :: params, r :: regs => by
      refine AvoidsArity.bind ?_ fun _ => bindParams params regs
      intro s op mismatch h
      cases h

/-- A reservation that fails is an error of another kind. -/
theorem withRegisters {request : Reservation} {body : List Reg → LowerM α}
    (hbody : ∀ regs, AvoidsArity (body regs)) : AvoidsArity (withRegisters request body) := by
  intro s op mismatch h
  rcases hreserve : s.registers.save.reserve request with ⟨cause | regs, file⟩
  · rw [withRegisters_of_error hreserve] at h
    cases h
  · rw [withRegisters_of_ok hreserve rfl] at h
    exact hbody _ _ op mismatch h

/-- The code of a function fails as its body does. -/
theorem functionAt {label : Label} {f : Function} (h : ∀ step ∈ f.body, AvoidsArity step) :
    AvoidsArity (functionAt label f) := by
  refine AvoidsArity.bind (writing _) fun _ => AvoidsArity.bind ?_ fun _ => ?_
  · intro s op mismatch htell
    cases htell
  · -- What surrounds the body passes on its failures.
    have hbody : AvoidsArity (withArguments f.params.length fun args => do
        Lowering.bindParams f.params args
        let result ← inSequence (.register Reg.result) f.body
        emit .ret [Operand.ofValue result]
        comment ("end of function " ++ label.text)) := by
      unfold withArguments
      split
      · intro s op mismatch hthrow
        cases hthrow
      · refine withRegisters fun args => AvoidsArity.bind (bindParams _ _) fun _ => ?_
        refine AvoidsArity.bind (sequential.inSequence h) fun result => ?_
        exact AvoidsArity.bind (writing _) fun _ => writing _
    intro s op mismatch hinside
    exact hbody _ op mismatch hinside

/-- With this all forms but those with an operator are covered. -/
theorem closed : Closed (@AvoidsArity) where
  toSequential := sequential
  live hf := AvoidsArity.bind get fun s => hf s.registers.live
  lookup := AvoidsArity.lookup
  unsupported _ _ _ _ h := nomatch h
  refused _ _ _ _ h := nomatch h
  emit _ _ := writing _
  defineLabel _ := writing _
  newLabel _ := writing _
  comment _ := writing _
  bindGlobal _ _ _ _ _ h := nomatch h
  withRegisters := AvoidsArity.withRegisters
  functionAt := AvoidsArity.functionAt

end AvoidsArity

/-! ## Folding and lowering refuse the same forms -/

/-- With operands that do not fail for this reason themselves, a form is refused exactly if it does
not have the number of operands of its operator. -/
theorem applyOperator_refuses_iff {op : Operator} {operands : List (LowerM Source)}
    (h : ∀ operand ∈ operands, AvoidsArity operand) (s : Lowering) (mismatch : ArityMismatch) :
    (applyOperator op operands s).1 = .error (.arity op mismatch) ↔
      op.arity.admits operands.length = false ∧ mismatch = ⟨op.arity, operands.length⟩ := by
  cases hadmits : op.arity.admits operands.length with
  | true =>
      have havoids : AvoidsArity (applyOperator op operands) :=
        AvoidsArity.closed.composed.applyOperator h (Or.inl hadmits)
      simp [havoids s op mismatch]
  | false =>
      rw [applyOperator_of_refused hadmits]
      simp [Steps.throw_apply, eq_comm]

/-- Folding and lowering refuse the same operator forms, with the same message, unless the form is
one that folding replaces by a unit. -/
theorem refuses_as_folding {ρ : Type} (a : Access ρ) {head : ρ} {op : Operator} {args : List ρ}
    (hop : (a.symbol? head).bind Operator.ofSymbol? = some op)
    (hunit : args ≠ [] ∨ op.unit? = none) {operands : List (LowerM Source)}
    (hlength : operands.length = args.length) (h : ∀ operand ∈ operands, AvoidsArity operand)
    (s : Lowering) (message : String) :
    (∃ mismatch, (applyOperator op operands s).1 = .error (.arity op mismatch) ∧
        (LowerError.arity op mismatch).message = message) ↔
      ∃ cause, reduceOperator a (head :: args) = .error cause ∧ cause.message = message := by
  have hmessage : (LowerError.arity op ⟨op.arity, args.length⟩).message =
      (FormError.arity op args.length).message := rfl
  simp only [applyOperator_refuses_iff h s, hlength]
  rw [reduceOperator_head a hop hunit]
  cases op.arity.admits args.length with
  | true =>
      constructor
      · rintro ⟨_, ⟨hrefused, _⟩, _⟩
        cases hrefused
      · rintro ⟨_, hcause, _⟩
        cases hcause
  | false =>
      constructor
      · rintro ⟨_, ⟨_, rfl⟩, hlower⟩
        exact ⟨_, rfl, hmessage.symm.trans hlower⟩
      · rintro ⟨_, hcause, hform⟩
        cases hcause
        exact ⟨_, ⟨rfl, rfl⟩, hmessage.trans hform⟩

end Lowering

/-! ## Normal terms -/

namespace Reduction

/-- An operator form that folding leaves as it is has the right number of operands.  Without
operands an operator that has a unit is replaced by it. -/
theorem FoldStable.admits {s : Symbol} {op : Operator} {operands : List Term}
    (hop : Operator.ofSymbol? s = some op)
    (h : FoldStable (.atom (.symbol s) :: operands)) :
    op.arity.admits operands.length = true := by
  by_cases hne : operands ≠ [] ∨ op.unit? = none
  · rw [FoldStable, reduceOperator_cons hop hne] at h
    by_contra hrefused
    rw [if_neg hrefused] at h
    rcases h with h | h <;> cases h
  · push Not at hne
    obtain ⟨rfl, hunit⟩ := hne
    obtain ⟨unit, hunit⟩ := Option.ne_none_iff_exists'.1 hunit
    have hhead : (access.symbol? (.atom (.symbol s))).bind Operator.ofSymbol? = some op := hop
    simp [FoldStable, reduceOperator, hhead, hunit] at h

end Reduction

namespace Term

open Lowering (AvoidsArity)

mutual

/-- The code of a term in normal form never fails with a wrong number of operands. -/
theorem avoidsArity_part : ∀ {t : Term}, Normal t → t.part.Has (@AvoidsArity)
  | .atom a, _ => AvoidsArity.closed.ofAtom a
  | .quoted _, _ => ⟨AvoidsArity.closed.unsupported _, fun _ hf => nomatch hf⟩
  | .list items, h => by
      cases h with
      | list hitems hirreducible =>
          refine ⟨AvoidsArity.closed.lowerList (avoidsArity_parts hitems) ?_,
            fun _ hf => nomatch hf⟩
          -- Operands are counted only behind a symbol that names an operator.
          intro head args s op hparts hsymbol hop
          rw [parts_eq_map] at hparts
          obtain ⟨head', operands, rfl, rfl, rfl⟩ := List.map_eq_cons_iff.1 hparts
          rw [symbol?_part] at hsymbol
          obtain rfl := eq_symbol_of_view hsymbol
          rw [List.length_map]
          exact Or.inl (hirreducible.fold.admits hop)
  | .func params body, h => by
      cases h with
      | func hbody =>
          have hcodes := Lowering.Part.meets_codes (avoidsArity_parts hbody)
          refine ⟨AvoidsArity.closed.localFunction hcodes, ?_⟩
          intro f hf
          cases hf
          exact hcodes
  | .typeDef name fields ctor methods, h => by
      cases h with
      | typeDef hctor hmethods =>
          exact ⟨AvoidsArity.closed.defineType (avoidsArity_body hctor)
            (avoidsArity_methodParts hmethods), fun _ hf => nomatch hf⟩

theorem avoidsArity_parts :
    ∀ {ts : List Term}, (∀ t ∈ ts, Normal t) → ∀ p ∈ parts ts, p.Has (@AvoidsArity)
  | [], _, _, hp => nomatch hp
  | t :: ts, h, p, hp => by
      rcases List.mem_cons.1 hp with rfl | hp
      · exact avoidsArity_part (h t (by simp))
      · exact avoidsArity_parts (fun u hu => h u (by simp [hu])) p hp

/-- A list that stands as a constructor or method is no function literal and has no code. -/
theorem avoidsArity_body : ∀ {t : Term}, Placed t → ∀ f, t.part.function? = some f →
    ∀ step ∈ f.body, AvoidsArity step
  | .func params body, h, f, hf => by
      cases h with
      | normal h => exact (avoidsArity_part h).function f hf
  | .atom _, _, _, hf => nomatch hf
  | .list _, _, _, hf => nomatch hf
  | .quoted _, _, _, hf => nomatch hf
  | .typeDef _ _ _ _, _, _, hf => nomatch hf

/-- The methods of a type in normal form have such bodies, too. -/
theorem avoidsArity_methodParts :
    ∀ {ms : List (Symbol × Term)}, (∀ m ∈ ms, Placed m.2) → ∀ m ∈ methodParts ms, ∀ f,
      m.2.function? = some f → ∀ step ∈ f.body, AvoidsArity step
  | [], _, _, hm => nomatch hm
  | (name, t) :: ms, h, m, hm => by
      rcases List.mem_cons.1 hm with rfl | hm
      · exact avoidsArity_body (h (name, t) (by simp))
      · exact avoidsArity_methodParts (fun m' hm' => h m' (by simp [hm'])) m hm

end

end Term

/-! ## Programs -/

namespace Compiler

open Lowering (AvoidsArity)

/-- What folding returns is in normal form. -/
theorem normal_of_fold {text : String} {program : List Term}
    (h : (fold text).result = .ok program) : ∀ t ∈ program, Term.Normal t := by
  unfold fold at h
  cases hread : read text with
  | error cause =>
      rw [hread] at h
      cases h
  | ok forms =>
      rw [hread] at h
      cases hforms : Term.normalizeAll forms with
      | error cause => simp [normalize, hforms, Except.mapError] at h
      | ok program' =>
          simp only [normalize, hforms, Except.mapError, Except.ok.injEq] at h
          exact h ▸ Term.normal_of_normalizeAll hforms

/-- The normal forms of a source text are never refused for the number of an operator's operands,
as a program or one by one, whatever was generated before them. -/
theorem lowering_normal_forms_avoids_arity {text : String} {program : List Term}
    (h : (fold text).result = .ok program) (s : Lowering) (op : Operator)
    (mismatch : ArityMismatch) :
    (Lowering.lowerProgram (Term.parts program) s).1 ≠ .error (.arity op mismatch) ∧
      ∀ t ∈ program, (Lowering.lower t s).1 ≠ .error (.arity op mismatch) := by
  have hnormal := normal_of_fold h
  refine ⟨AvoidsArity.closed.lowerProgram (Term.avoidsArity_parts hnormal) s op mismatch, ?_⟩
  intro t ht
  exact (Term.avoidsArity_part (hnormal t ht)).code s op mismatch

/-- Two forms whose operators stand behind a nop, lose operands or go away. -/
def shrinkingText : String :=
  "(define f (func (x) (nop) (if (and x) ((nop) - 8 2 x) (+ 1 (nop) 2))))
   (def-type point (x y) (* x 2 3) (wrapped (func (k) (remainder x (nop) k))))"

def shrunkProgram : List Term :=
  [.list [.symbol ⟨"define"⟩, .symbol ⟨"f"⟩,
      .func [⟨"x"⟩] [.list [.symbol ⟨"if"⟩, .symbol ⟨"x"⟩,
        .list [.symbol ⟨"-"⟩, .atom (.number 6.0), .symbol ⟨"x"⟩], .atom (.number 3.0)]]],
    .typeDef ⟨"point"⟩ [⟨"x"⟩, ⟨"y"⟩]
      (.func [⟨"x"⟩, ⟨"y"⟩] [.list [.symbol ⟨"*"⟩, .symbol ⟨"x"⟩, .atom (.number 6.0)]])
      [(⟨"wrapped"⟩, .func [Symbol.this, ⟨"k"⟩]
        [.list [.symbol ⟨"remainder"⟩, .symbol ⟨"x"⟩, .symbol ⟨"k"⟩]])]]

theorem lowering_shrunkProgram_avoids_arity :
    (fold shrinkingText).result = .ok shrunkProgram ∧
      ∀ op mismatch, (Lowering.lowerProgram (Term.parts shrunkProgram) {}).1 ≠
        .error (.arity op mismatch) := by
  have h : (fold shrinkingText).result = .ok shrunkProgram := by
    decide +kernel
  exact ⟨h, fun op mismatch => (lowering_normal_forms_avoids_arity h {} op mismatch).1⟩

/-- Lowering does check: it refuses a remainder from which the nop was not removed. -/
example : (Lowering.lower (.list [.symbol ⟨"remainder"⟩, .symbol ⟨"x"⟩,
    .list [.symbol Symbol.nop], .symbol ⟨"k"⟩]) {}).1 = .error (.arity .rem ⟨.exactlyTwo, 3⟩) := by
  decide +kernel

end Compiler
end RegisterLisp
