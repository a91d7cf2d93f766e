import RegisterLisp.Proofs.Normalization

/-!
# Folding keeps conditions

A condition is built from literals and symbols with `and`, `or` and `not`.  Its evaluation goes from
left to right and leaves off as soon as the truth value is known.  What counts is this truth value
and the sequence of symbols evaluated on the way, since evaluating a symbol may fail.

Every occurrence of a symbol has a number of its own, and may be given a truth value of its own.
The names of the symbols come in only when a condition is written as a term.  So a folded condition
can be compared with the original occurrence by occurrence: `Condition.fold` is the folded
condition, and normalizing leads to it under any choice of names (`Condition.normalize_term`).
-/

namespace RegisterLisp

open Reduction
open Term (access normalize normalizeAll)

/-! ## Unchanged forms -/

namespace Term

mutual

/-- How deep a term is nested. -/
def height : Term → Nat
  | .atom _ => 0
  | .list items => heights items + 1
  | .quoted inner => height inner + 1
  | .func _ body => heights body + 1
  | .typeDef _ _ ctor methods => max (height ctor) (heightMethods methods) + 1

def heights : List Term → Nat
  | [] => 0
  | t :: ts => max (height t) (heights ts)

def heightMethods : List (Symbol × Term) → Nat
  | [] => 0
  | (_, t) :: ms => max (height t) (heightMethods ms)

end

mutual

/-- Terms that programs take for equal are nested equally deep. -/
theorem height_eq_of_same : ∀ {t u : Term}, same t u = true → height t = height u
  | .atom _, .atom _, _ => rfl
  | .list _, .list _, h => by
      rw [height, height, heights_eq_of_sameAll h]
  | .quoted t, .quoted u, h => by
      have hinner : height t = height u := height_eq_of_same h
      rw [height, height, hinner]
  | .func _ _, .func _ _, h => by
      rw [same, Bool.and_eq_true] at h
      rw [height, height, heights_eq_of_sameAll h.2]
  | .typeDef _ _ _ _, .typeDef _ _ _ _, h => by
      simp only [same, Bool.and_eq_true] at h
      rw [height, height, height_eq_of_same h.1.2, heightMethods_eq_of_sameMethods h.2]

theorem heights_eq_of_sameAll :
    ∀ {ts us : List Term}, sameAll ts us = true → heights ts = heights us
  | [], [], _ => rfl
  | t :: ts, u :: us, h => by
      rw [sameAll, Bool.and_eq_true] at h
      rw [heights, heights, height_eq_of_same h.1, heights_eq_of_sameAll h.2]

theorem heightMethods_eq_of_sameMethods :
    ∀ {ms ns : List (Symbol × Term)}, sameMethods ms ns = true → heightMethods ms = heightMethods ns
  | [], [], _ => rfl
  | (s, t) :: ms, (s', u) :: ns, h => by
      simp only [sameMethods, Bool.and_eq_true] at h
      rw [heightMethods, heightMethods, height_eq_of_same h.1.2,
        heightMethods_eq_of_sameMethods h.2]

end

theorem height_le_heights {t : Term} {ts : List Term} (h : t ∈ ts) : height t ≤ heights ts := by
  induction ts with
  | nil => cases h
  | cons u ts ih =>
      rcases List.mem_cons.1 h with rfl | h
      · exact le_max_left _ _
      · exact (ih h).trans (le_max_right _ _)

/-- The comparison of lists that rules make. -/
theorem access_sameAll : ∀ ts us : List Term, access.sameAll ts us = sameAll ts us
  | [], [] => rfl
  | [], _ :: _ => rfl
  | _ :: _, [] => rfl
  | t :: ts, u :: us => by
      rw [sameAll, ← access_sameAll ts us]
      cases hsame : same t u <;> simp [Access.sameAll, access, hsame]

end Term

/-! ## Conditions -/

/-- An operator that leaves off as soon as its value is known. -/
inductive Connective
  | and
  | or
  deriving DecidableEq

namespace Connective

def operator : Connective → Operator
  | .and => .and
  | .or => .or

/-- The truth value of an operand that decides the whole form. -/
def decisive : Connective → Bool
  | .and => false
  | .or => true

def reduce {ρ : Type} (c : Connective) (a : Access ρ) (head : ρ) (operands : List ρ) :
    Replacement ρ :=
  match c with
  | .and => reduceAnd a head operands
  | .or => reduceOr a head operands

def symbol (c : Connective) : Symbol :=
  ⟨c.operator.name⟩

/-- What a form is folded to that a literal decides. -/
def verdict : Connective → Atom → Atom
  | .and, _ => .bool false
  | .or, l => l

/-- What a literal that decides is replaced by decides the form around it in the same way. -/
theorem truth?_verdict (c : Connective) {l : Atom} (h : l.truth? = some c.decisive) :
    (c.verdict l).truth? = some c.decisive := by
  cases c with
  | and => rfl
  | or => exact h

section Reduce

variable {ρ : Type} {a : Access ρ} {head : ρ} {operands : List ρ}

theorem simplified?_eq (c : Connective) :
    simplified? a c.operator head operands = some (c.reduce a head operands) := by
  cases c <;> rfl

/-- A leading literal that decides takes the place of the form. -/
theorem reduce_of_decided {c : Connective} {l : Atom}
    (h : (leadingLiterals a operands).find? (fun l => l.truth? == some c.decisive) = some l) :
    c.reduce a head operands = .part (a.atom (c.verdict l)) := by
  cases c with
  | and =>
      have hany := Option.isSome_of_eq_some h
      rw [List.isSome_find?] at hany
      exact if_pos hany
  | or =>
      have hfind : (leadingLiterals a operands).find? (fun l => l.truth? == some true) = some l := h
      rw [reduce, reduceOr, hfind]
      rfl

/-- Without one, the form is built again without the neutral literals. -/
theorem reduce_of_undecided {c : Connective}
    (h : (leadingLiterals a operands).find? (fun l => l.truth? == some c.decisive) = none) :
    c.reduce a head operands =
      rebuild a head (operands.filter fun r => !isBool a (!c.decisive) r) (.bool !c.decisive) := by
  cases c with
  | and =>
      have hany := Option.isSome_eq_false_iff.2 (Option.isNone_iff_eq_none.2 h)
      rw [List.isSome_find?] at hany
      exact if_neg fun htrue => Bool.false_ne_true (hany.symm.trans htrue)
  | or =>
      have hfind : (leadingLiterals a operands).find? (fun l => l.truth? == some true) = none := h
      rw [reduce, reduceOr, hfind]
      rfl

/-- No operand is equal to the form that it stands in. -/
theorem isUnchanged_operand {head t : Term} {operands : List Term} (h : t ∈ operands) :
    isUnchanged access (head :: operands) (.part t) = false := by
  cases t with
  | list others =>
      rw [Bool.eq_false_iff]
      intro hsame
      have hheights := Term.heights_eq_of_sameAll
        ((Term.access_sameAll others (head :: operands)).symm.trans hsame)
      have hle := Term.height_le_heights (List.mem_cons_of_mem head h)
      rw [Term.height, hheights] at hle
      omega
  | _ => rfl

/-- A form that is equal to the folded one is the folded one. -/
theorem toTerm_reduce_of_isUnchanged {c : Connective} {head : Term} {operands : List Term}
    (h : isUnchanged access (head :: operands) (c.reduce access head operands) = true) :
    (c.reduce access head operands).toTerm = .list (head :: operands) := by
  cases hfind : (leadingLiterals access operands).find? fun l => l.truth? == some c.decisive with
  | some l =>
      rw [reduce_of_decided hfind] at h
      cases h
  | none =>
      rw [reduce_of_undecided hfind] at h ⊢
      generalize hkept : operands.filter (fun r => !isBool access (!c.decisive) r) = kept at h ⊢
      match kept with
      | [] => cases h
      | [t] =>
          have ht : t ∈ operands := (List.mem_filter.1 (hkept ▸ List.mem_singleton_self t)).1
          rw [rebuild, isUnchanged_operand ht] at h
          cases h
      | t :: u :: us =>
          -- The operands kept are as many as there were, so none was dropped.
          have hlength : (t :: u :: us).length = operands.length := by
            have hlengths := (Bool.and_eq_true_iff.1 h).1
            simpa using hlengths
          rw [← hkept] at hlength
          have hall := List.filter_eq_self.2 (List.length_filter_eq_length_iff.1 hlength)
          exact congrArg (fun ts => Term.list (head :: ts)) (hkept.symm.trans hall)

end Reduce

theorem ofSymbol?_symbol (c : Connective) : Operator.ofSymbol? c.symbol = some c.operator := by
  cases c <;> rfl

/-- Folding a form whose operands are folded. -/
theorem afterFolding_eq (c : Connective) (operands : List Term) :
    Term.afterFolding (.atom (.symbol c.symbol) :: operands) =
      .ok (c.reduce access (.atom (.symbol c.symbol)) operands).toTerm := by
  have hadmits : c.operator.arity.admits operands.length = true := by
    cases c <;> rfl
  have hunit : c.operator.unit? = none := by
    cases c <;> rfl
  rw [Term.afterFolding_of_some c.ofSymbol?_symbol (Or.inr hunit) hadmits c.simplified?_eq]
  split
  · rename_i hunchanged
    rw [c.toTerm_reduce_of_isUnchanged hunchanged]
  · rfl

end Connective

/-- A literal with its truth value, the occurrence of a symbol, or a form. -/
inductive Condition
  | literal (value : Atom) (truth : Bool) (h : value.truth? = some truth)
  | symbol (occurrence : Nat)
  | form (connective : Connective) (operands : List Condition)
  | not (operand : Condition)

namespace Condition

variable (names : Nat → Symbol) (assign : Nat → Bool)

mutual

/-- The condition as a term, with a name for every occurrence of a symbol. -/
def term : Condition → Term
  | .literal value _ _ => .atom value
  | .symbol occurrence => .atom (.symbol (names occurrence))
  | .form c operands => .list (.atom (.symbol c.symbol) :: terms operands)
  | .not operand => .list [.atom (.symbol ⟨Operator.not.name⟩), term operand]

def terms : List Condition → List Term
  | [] => []
  | e :: es => term e :: terms es

end

mutual

/-- The truth value of a condition, and the occurrences of symbols that are evaluated to find it. -/
def run : Condition → Bool × List Nat
  | .literal _ truth _ => (truth, [])
  | .symbol occurrence => (assign occurrence, [occurrence])
  | .form c operands => runUntil c.decisive operands
  | .not operand => (!(run operand).1, (run operand).2)

/-- Evaluates conditions up to the first with the truth value `stop`. -/
def runUntil (stop : Bool) : List Condition → Bool × List Nat
  | [] => (!stop, [])
  | e :: es =>
      if (run e).1 = stop then run e
      else ((runUntil stop es).1, (run e).2 ++ (runUntil stop es).2)

end

theorem terms_eq_map (es : List Condition) : terms names es = es.map (term names) := by
  induction es with
  | nil => rfl
  | cons e es ih => rw [terms, ih, List.map_cons]

/-- A condition is no nop. -/
theorem isNop_term (e : Condition) : isNop access (e.term names) = false := by
  cases e with
  | literal value truth h => rfl
  | symbol k => rfl
  | form c es => exact Term.isNop_operator (by rw [c.ofSymbol?_symbol]; rfl)
  | not e => exact Term.isNop_operator rfl

/-! ## Folding -/

/-- The first literal that decides, among those that operands start with. -/
def deciding? (stop : Bool) : List Condition → Option {a : Atom // a.truth? = some stop}
  | .literal value truth h :: es =>
      if hstop : truth = stop then some ⟨value, hstop ▸ h⟩ else deciding? stop es
  | _ => none

/-- Whether a condition is the boolean that has no effect as an operand. -/
def isNeutral (stop : Bool) : Condition → Bool
  | .literal (.bool b) _ _ => b == !stop
  | _ => false

def collapse (c : Connective) : List Condition → Condition
  | [] => .literal (.bool !c.decisive) (!c.decisive) rfl
  | [e] => e
  | es => .form c es

def combine (c : Connective) (es : List Condition) : Condition :=
  match deciding? c.decisive es with
  | some l => .literal (c.verdict l) c.decisive (c.truth?_verdict l.property)
  | none => collapse c (es.filter fun e => !e.isNeutral c.decisive)

def negate : Condition → Condition
  | .literal _ truth _ => .literal (.bool !truth) (!truth) rfl
  | e => .not e

mutual

/-- The condition with its literals folded. -/
def fold : Condition → Condition
  | .form c operands => combine c (foldAll operands)
  | .not operand => negate (fold operand)
  | e => e

def foldAll : List Condition → List Condition
  | [] => []
  | e :: es => fold e :: foldAll es

end

/-! ## Folding keeps truth values and the order of evaluation -/

/-- A deciding literal is reached without evaluating a symbol. -/
theorem runUntil_of_deciding {stop : Bool} {es : List Condition}
    {l : {a : Atom // a.truth? = some stop}} (h : deciding? stop es = some l) :
    runUntil assign stop es = (stop, []) := by
  induction es with
  | nil => cases h
  | cons e es ih =>
      cases e with
      | literal value truth hvalue =>
          by_cases hstop : truth = stop
          · simp [runUntil, run, hstop]
          · simp only [deciding?, hstop, dite_false] at h
            simp [runUntil, run, hstop, ih h]
      | _ => cases h

/-- A neutral literal evaluates nothing and decides nothing. -/
theorem run_of_isNeutral {stop : Bool} {e : Condition} (h : e.isNeutral stop = true) :
    run assign e = (!stop, []) := by
  cases e with
  | literal value truth hvalue =>
      cases value with
      | bool b =>
          have hb : b = !stop := by simpa [isNeutral] using h
          have htruth : b = truth := by simpa [Atom.truth?] using hvalue
          rw [run, ← htruth, hb]
      | _ => cases h
  | _ => cases h

/-- Operands that have no effect may be dropped. -/
theorem runUntil_filter (stop : Bool) (es : List Condition) :
    runUntil assign stop (es.filter fun e => !e.isNeutral stop) = runUntil assign stop es := by
  induction es with
  | nil => rfl
  | cons e es ih =>
      cases hneutral : e.isNeutral stop with
      | true => simp [runUntil, hneutral, ih, run_of_isNeutral assign hneutral]
      | false => simp [runUntil, hneutral, ih]

/-- Around the operands that are left, the form runs as its operands do. -/
theorem run_collapse (c : Connective) (es : List Condition) :
    run assign (collapse c es) = runUntil assign c.decisive es := by
  match es with
  | [] => rfl
  | [e] =>
      by_cases hstop : (run assign e).1 = c.decisive
      · simp [collapse, runUntil, hstop]
      · have hother : (run assign e).1 = !c.decisive := Bool.eq_not.2 hstop
        simp [collapse, runUntil, hstop, ← hother]
  | _ :: _ :: _ => rfl

/-- Folding a form does not change what it evaluates, or its value. -/
theorem run_combine (c : Connective) (es : List Condition) :
    run assign (combine c es) = runUntil assign c.decisive es := by
  unfold combine
  split
  · rename_i l hl
    rw [runUntil_of_deciding assign hl]
    rfl
  · rw [run_collapse, runUntil_filter]

/-- Nor does folding a negation. -/
theorem run_negate (e : Condition) :
    run assign (negate e) = (!(run assign e).1, (run assign e).2) := by
  cases e <;> rfl

mutual

/-- Nor folding a whole condition, by its structure. -/
theorem run_fold : ∀ e : Condition, run assign (fold e) = run assign e
  | .literal _ _ _ => rfl
  | .symbol _ => rfl
  | .form c operands => by rw [fold, run_combine, runUntil_foldAll, run]
  | .not operand => by rw [fold, run_negate, run_fold operand, run]

theorem runUntil_foldAll (stop : Bool) :
    ∀ es : List Condition, runUntil assign stop (foldAll es) = runUntil assign stop es
  | [] => rfl
  | e :: es => by rw [foldAll, runUntil, run_fold e, runUntil_foldAll stop es, ← runUntil]

end

/-! ## Normalizing leads to the folded condition -/

/-- The literal that decides a term is the one that decides the condition. -/
theorem find?_leadingLiterals (stop : Bool) (es : List Condition) :
    ((leadingLiterals access (es.map (term names))).find? fun l => l.truth? == some stop) =
      (deciding? stop es).map Subtype.val := by
  induction es with
  | nil => rfl
  | cons e es ih =>
      rw [List.map_cons]
      cases e with
      | literal value truth h =>
          rw [term, leadingLiterals_cons_atom (Atom.isLiteral_of_truth? h), List.find?_cons]
          by_cases hstop : truth = stop
          · simp [deciding?, hstop, h]
          · have hne : (value.truth? == some stop) = false := by simpa [h] using hstop
            simp [deciding?, hstop, hne, ih]
      | _ =>
          rw [leadingLiterals_cons_of_not rfl]
          rfl

theorem isBool_term (stop : Bool) (e : Condition) :
    isBool access (!stop) (e.term names) = e.isNeutral stop := by
  cases e with
  | literal value truth h => cases value <;> rfl
  | _ => rfl

/-- Dropping booleans from the terms is dropping them from the conditions. -/
theorem filter_isBool (stop : Bool) (es : List Condition) :
    ((es.map (term names)).filter fun t => !isBool access (!stop) t) =
      (es.filter fun e => !e.isNeutral stop).map (term names) := by
  rw [List.filter_map]
  congr 1
  exact List.filter_congr fun e _ => by rw [Function.comp_apply, isBool_term]

/-- The form that is built again is that of the condition. -/
theorem rebuild_term (c : Connective) (es : List Condition) :
    (rebuild access (.atom (.symbol c.symbol)) (es.map (term names)) (.bool !c.decisive)).toTerm =
      (collapse c es).term names := by
  match es with
  | [] => rfl
  | [e] => rfl
  | _ :: _ :: _ => simp [rebuild, collapse, term, terms_eq_map, Replacement.toTerm]

/-- Folding the term is folding the condition. -/
theorem toTerm_reduce (c : Connective) (es : List Condition) :
    (c.reduce access (.atom (.symbol c.symbol)) (es.map (term names))).toTerm =
      (combine c es).term names := by
  have hfind := find?_leadingLiterals names c.decisive es
  unfold combine
  cases hdeciding : deciding? c.decisive es with
  | some l =>
      rw [hdeciding, Option.map_some] at hfind
      rw [Connective.reduce_of_decided hfind]
      rfl
  | none =>
      rw [hdeciding, Option.map_none] at hfind
      rw [Connective.reduce_of_undecided hfind, filter_isBool]
      exact rebuild_term names c _

/-- Folding the term of a form is folding the condition. -/
theorem afterFolding_form (c : Connective) (es : List Condition) :
    Term.afterFolding (.atom (.symbol c.symbol) :: es.map (term names)) =
      .ok ((combine c es).term names) := by
  rw [c.afterFolding_eq, toTerm_reduce]

/-- Folding a negation with a folded operand. -/
theorem afterFolding_not (e : Condition) :
    Term.afterFolding [.atom (.symbol ⟨Operator.not.name⟩), e.term names] =
      .ok ((negate e).term names) := by
  have hnot : Operator.ofSymbol? ⟨Operator.not.name⟩ = some .not := rfl
  cases e with
  | literal value truth h =>
      have hvalue : simplified? access .not (.atom (.symbol ⟨Operator.not.name⟩)) [.atom value] =
          some (.part (.atom (.bool !truth))) := by
        simp [simplified?, access, Term.view, View.atom?, unaryValue?, h]
      exact Term.afterFolding_of_some hnot (Or.inr rfl) rfl hvalue
  | _ => exact Term.afterFolding_of_none hnot (Or.inr rfl) rfl rfl

mutual

/-- Normalizing the term of a condition folds the condition. -/
theorem normalize_term : ∀ e : Condition, normalize (e.term names) = .ok (e.fold.term names)
  | .literal _ _ _ => rfl
  | .symbol _ => rfl
  | .form c operands => by
      have hoperands := normalizeAll_terms operands
      rw [terms_eq_map _ (foldAll operands)] at hoperands
      rw [term, Term.normalize_operator (by rw [c.ofSymbol?_symbol]; rfl) hoperands ?_,
        afterFolding_form, fold]
      intro t ht
      obtain ⟨e, -, rfl⟩ := List.mem_map.1 ht
      exact isNop_term names e
  | .not operand => by
      have hoperand : normalizeAll [operand.term names] = .ok [operand.fold.term names] := by
        rw [Term.normalizeAll_cons, normalize_term operand]
        rfl
      rw [term, Term.normalize_operator rfl hoperand (by simp [isNop_term]), afterFolding_not,
        fold]

theorem normalizeAll_terms :
    ∀ es : List Condition, normalizeAll (terms names es) = .ok (terms names (foldAll es))
  | [] => rfl
  | e :: es => by
      rw [terms, Term.normalizeAll_cons, normalize_term e, normalizeAll_terms es]
      rfl

end

/-- Normalizing keeps the truth value of a condition, and the sequence of the symbols evaluated to
find it, occurrence by occurrence and whatever their names are. -/
theorem normalize_preserves_run (e : Condition) :
    ∃ e' : Condition, (∀ names, normalize (e.term names) = .ok (e'.term names)) ∧
      ∀ assign, e'.run assign = e.run assign :=
  ⟨e.fold, fun names => normalize_term names e, fun assign => run_fold assign e⟩

end Condition
end RegisterLisp
