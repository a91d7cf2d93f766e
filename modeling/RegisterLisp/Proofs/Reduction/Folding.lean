import RegisterLisp.Reduction.Rules
import Mathlib.Data.List.TakeWhile

/-!
# Folding an operator form twice

Folding replaces an operator form by a literal, by one of its operands, or by a form with the same
operator and at least two operands, each of which is an operand of the old form or a literal.  In
the last case folding again changes nothing:

* conjunctions and disjunctions have lost their booleans, and the literals they start with are those
  they started with before, without the booleans;
* commutative operators are left with a single literal;
* a difference or a quotient starts with one literal, behind which there is none that could be
  combined with it.

None of this depends on what the operators compute.
-/

namespace RegisterLisp

theorem Atom.isLiteral_of_truth? {a : Atom} {truth : Bool} (h : a.truth? = some truth) :
    a.isLiteral = true := by
  cases a <;> first | rfl | cases h

namespace Reduction

open Term (access)

variable {head : Term} {operands kept items : List Term}

/-! ## What folding leads to -/

/-- What may stand in the place of an operator form after folding. -/
inductive Folded (head : Term) (operands : List Term) : Replacement Term → Prop
  | atom {v : Atom} (h : v.isLiteral = true) : Folded head operands (.part (.atom v))
  | operand {t : Term} (h : t ∈ operands) : Folded head operands (.part t)
  | list {kept : List Term}
      (hkept : ∀ t ∈ kept, t ∈ operands ∨ ∃ v : Atom, t = .atom v ∧ v.isLiteral = true)
      (hlength : 2 ≤ kept.length) : Folded head operands (.list (head :: kept))

/-- A form with some of its operands or literals in it is a result of folding. -/
theorem folded_rebuild {empty : Atom} (hempty : empty.isLiteral = true)
    (h : ∀ t ∈ kept, t ∈ operands ∨ ∃ v : Atom, t = .atom v ∧ v.isLiteral = true) :
    Folded head operands (rebuild access head kept empty) := by
  match kept with
  | [] => exact Folded.atom hempty
  | [t] =>
      rcases h t (by simp) with ht | ⟨v, rfl, hv⟩
      · exact Folded.operand ht
      · exact Folded.atom hv
  | _ :: _ :: _ => exact Folded.list h (by simp)

/-- A form is rebuilt only around two or more operands. -/
theorem rebuild_eq_list {empty : Atom} (h : rebuild access head operands empty = .list items) :
    items = head :: operands ∧ 2 ≤ operands.length := by
  match operands with
  | [] => cases h
  | [_] => cases h
  | _ :: _ :: _ =>
      cases h
      exact ⟨rfl, by simp⟩

/-- With two operands or more the form stays a form. -/
theorem rebuild_of_length {empty : Atom} (h : 2 ≤ operands.length) :
    rebuild access head operands empty = .list (head :: operands) := by
  match operands with
  | [] => simp at h
  | [_] => simp at h
  | _ :: _ :: _ => rfl

/-! ## Conjunctions and disjunctions -/

/-- What `and` is folded to is a literal or built from its operands. -/
theorem folded_reduceAnd : Folded head operands (reduceAnd access head operands) := by
  unfold reduceAnd
  split
  · exact Folded.atom rfl
  · exact folded_rebuild rfl fun t ht => Or.inl (List.mem_filter.1 ht).1

theorem folded_reduceOr : Folded head operands (reduceOr access head operands) := by
  unfold reduceOr
  split
  · rename_i l hl
    have htruth : l.truth? = some true := by simpa using List.find?_some hl
    exact Folded.atom (Atom.isLiteral_of_truth? htruth)
  · exact folded_rebuild rfl fun t ht => Or.inl (List.mem_filter.1 ht).1

theorem leadingLiterals_cons_atom {v : Atom} (h : v.isLiteral = true) :
    leadingLiterals access (.atom v :: operands) = v :: leadingLiterals access operands := by
  have hview : (access.view (.atom v)).isLiteral = true := h
  simp [leadingLiterals, hview]
  rfl

/-- Behind an operand that is no literal none counts. -/
theorem leadingLiterals_cons_of_not {t : Term} (h : t.view.isLiteral = false) :
    leadingLiterals access (t :: operands) = [] := by
  have hview : (access.view t).isLiteral = false := h
  simp [leadingLiterals, hview]

theorem eq_atom_of_isLiteral {t : Term} (h : t.view.isLiteral = true) :
    ∃ v, t = .atom v ∧ v.isLiteral = true := by
  cases t with
  | atom v => exact ⟨v, rfl, h⟩
  | _ => cases h

/-- Only the boolean itself is neutral, not another literal with that truth value. -/
theorem eq_bool_of_isBool {b : Bool} {t : Term} (h : isBool access b t = true) :
    t = .atom (.bool b) := by
  unfold isBool at h
  cases t with
  | atom v =>
      cases v with
      | bool c =>
          have hc : c = b := by simpa [access, Term.view] using h
          rw [hc]
      | _ => cases h
  | _ => cases h

/-- Dropping booleans adds nothing to the literals that operands start with. -/
theorem mem_leadingLiterals_of_filter {b : Bool} {l : Atom} {operands : List Term}
    (h : l ∈ leadingLiterals access (operands.filter fun r => !isBool access b r)) :
    l ∈ leadingLiterals access operands := by
  induction operands with
  | nil => exact h
  | cons t operands ih =>
      by_cases hbool : isBool access b t = true
      · -- A boolean that is dropped was a literal itself.
        have hdrop : ((t :: operands).filter fun r => !isBool access b r)
            = operands.filter fun r => !isBool access b r := by
          simp [hbool]
        rw [hdrop] at h
        rw [eq_bool_of_isBool hbool, leadingLiterals_cons_atom rfl]
        exact List.mem_cons_of_mem _ (ih h)
      · have hkeep : ((t :: operands).filter fun r => !isBool access b r)
            = t :: operands.filter fun r => !isBool access b r := by
          simp [hbool]
        rw [hkeep] at h
        cases hliteral : t.view.isLiteral with
        | false =>
            rw [leadingLiterals_cons_of_not hliteral] at h
            cases h
        | true =>
            obtain ⟨v, rfl, hv⟩ := eq_atom_of_isLiteral hliteral
            rw [leadingLiterals_cons_atom hv] at h ⊢
            rcases List.mem_cons.1 h with rfl | h
            · exact List.mem_cons_self
            · exact List.mem_cons_of_mem _ (ih h)

/-- Folding an `and` a second time changes nothing. -/
theorem reduceAnd_again (h : reduceAnd access head operands = .list (head :: kept)) :
    reduceAnd access head kept = .list (head :: kept) := by
  unfold reduceAnd at h
  split at h
  · cases h
  · rename_i hfalse
    obtain ⟨hkept, hlength⟩ := rebuild_eq_list h
    have hkept : kept = operands.filter fun r => !isBool access true r := List.cons.inj hkept |>.2
    have hfilter : kept.filter (fun r => !isBool access true r) = kept := by
      rw [hkept, List.filter_filter]
      simp
    -- A false literal at the start would have been found among the operands before.
    have hnone : ¬ (leadingLiterals access kept).any (fun l => l.truth? == some false) = true := by
      intro hany
      obtain ⟨l, hl, htruth⟩ := List.any_eq_true.1 hany
      rw [hkept] at hl
      exact hfalse (List.any_eq_true.2 ⟨l, mem_leadingLiterals_of_filter hl, htruth⟩)
    rw [reduceAnd, if_neg hnone, hfilter, rebuild_of_length (by rw [hkept]; exact hlength)]

/-- Nor does folding an `or`. -/
theorem reduceOr_again (h : reduceOr access head operands = .list (head :: kept)) :
    reduceOr access head kept = .list (head :: kept) := by
  unfold reduceOr at h
  split at h
  · cases h
  · rename_i htrue
    obtain ⟨hkept, hlength⟩ := rebuild_eq_list h
    have hkept : kept = operands.filter fun r => !isBool access false r :=
      List.cons.inj hkept |>.2
    have hfilter : kept.filter (fun r => !isBool access false r) = kept := by
      rw [hkept, List.filter_filter]
      simp
    -- The same for a true literal, which would have been the result.
    have hnone : (leadingLiterals access kept).find? (fun l => l.truth? == some true) = none := by
      rw [List.find?_eq_none] at htrue ⊢
      intro l hl
      rw [hkept] at hl
      exact htrue l (mem_leadingLiterals_of_filter hl)
    rw [reduceOr, hnone, hfilter, rebuild_of_length (by rw [hkept]; exact hlength)]

/-! ## Merging literals -/

/-- Merged literals leave a form that is folded, with the new literal among its operands. -/
theorem folded_mergeLiterals {f : Float → Float → Float} {r : Replacement Term}
    (h : mergeLiterals access f head operands = some r) : Folded head operands r := by
  unfold mergeLiterals at h
  split at h
  · cases h
    refine folded_rebuild rfl fun t ht => ?_
    rcases List.mem_append.1 ht with ht | ht
    · exact Or.inl (List.mem_filter.1 ht).1
    · exact Or.inr ⟨_, List.mem_singleton.1 ht, rfl⟩
  · cases h

/-- After merging there is a single literal number, and so nothing to merge. -/
theorem mergeLiterals_again {f : Float → Float → Float}
    (h : mergeLiterals access f head operands = some (.list (head :: kept))) :
    mergeLiterals access f head kept = none := by
  unfold mergeLiterals at h
  split at h
  · rename_i x y rest _
    obtain ⟨hkept, -⟩ := rebuild_eq_list (Option.some.inj h)
    have hkept := (List.cons.inj hkept).2
    -- The operands that stay are no literals, so the merged one is the only literal.
    have hothers : (operands.filter fun r => (access.number? r).isNone).filterMap access.number?
        = [] := by
      rw [List.filterMap_eq_nil_iff]
      intro t ht
      exact Option.isNone_iff_eq_none.1 (by simpa using (List.mem_filter.1 ht).2)
    have hnumbers : kept.filterMap access.number? = [(y :: rest).foldl f x] := by
      rw [hkept, List.filterMap_append, hothers]
      rfl
    rw [mergeLiterals, hnumbers]
  · cases h

/-- Merging the leading numbers leaves operands and one literal. -/
theorem folded_mergeLeading {f : Float → Float → Float} {stop : Float → Bool}
    {r : Replacement Term} (h : mergeLeading access f stop head operands = some r) :
    Folded head operands r := by
  unfold mergeLeading at h
  split at h
  · cases h
  · split at h
    · cases h
    · cases h
      refine folded_rebuild rfl fun t ht => ?_
      rcases List.mem_cons.1 ht with rfl | ht
      · exact Or.inr ⟨_, rfl, rfl⟩
      · exact Or.inl (List.mem_of_mem_drop ht)

/-- Behind some of the numbers that operands start with come the others. -/
theorem leadingNumbers_drop {n : Nat} (h : n ≤ (leadingNumbers access operands).length) :
    leadingNumbers access (operands.drop n) = (leadingNumbers access operands).drop n := by
  induction n generalizing operands with
  | zero => rfl
  | succ n ih =>
      cases operands with
      | nil => simp [leadingNumbers] at h
      | cons t operands =>
          cases ht : access.number? t with
          | none => simp [leadingNumbers, ht] at h
          | some x =>
              have hle : n ≤ (leadingNumbers access operands).length := by
                simpa [leadingNumbers, ht] using h
              have hcons : leadingNumbers access (t :: operands)
                  = x :: leadingNumbers access operands := by
                simp [leadingNumbers, ht]
              rw [hcons, List.drop_succ_cons, List.drop_succ_cons]
              exact ih hle

/-- What is left behind the longest run that may be combined starts with a stop. -/
theorem takeWhile_drop_takeWhile (p : Float → Bool) (xs : List Float) :
    (xs.drop (xs.takeWhile p).length).takeWhile p = [] := by
  induction xs with
  | nil => rfl
  | cons x xs ih =>
      cases hx : p x with
      | true => simpa [hx] using ih
      | false => simp [hx]

/-- After merging, the first literal is followed by one that is not merged, or by none. -/
theorem mergeLeading_again {f : Float → Float → Float} {stop : Float → Bool}
    (h : mergeLeading access f stop head operands = some (.list (head :: kept))) :
    mergeLeading access f stop head kept = none := by
  unfold mergeLeading at h
  split at h
  · cases h
  · rename_i x rest hnumbers
    split at h
    · cases h
    · rename_i hrun
      -- The run that is merged ends where the numbers end or at a number that stops it.
      generalize hruns : rest.takeWhile (fun y => !stop y) = run at h
      obtain ⟨hkept, -⟩ := rebuild_eq_list (Option.some.inj h)
      have hkept := (List.cons.inj hkept).2
      have hlength : run.length + 1 ≤ (leadingNumbers access operands).length := by
        rw [hnumbers, ← hruns]
        have hle := (List.takeWhile_sublist (fun y => !stop y) (l := rest)).length_le
        simpa using hle
      have hleading : leadingNumbers access kept = run.foldl f x :: rest.drop run.length := by
        rw [hkept]
        change _ :: leadingNumbers access (operands.drop (run.length + 1)) = _
        rw [leadingNumbers_drop hlength, hnumbers, List.drop_succ_cons]
      have hstop := takeWhile_drop_takeWhile (fun y => !stop y) rest
      rw [hruns] at hstop
      rw [mergeLeading, hleading]
      dsimp only
      rw [hstop]

/-! ## All operators -/

/-- A unary operator is folded to a literal. -/
theorem isLiteral_unaryValue? {op : Operator} {a v : Atom} (h : unaryValue? op a = some v) :
    v.isLiteral = true := by
  unfold unaryValue? at h
  split at h
  · obtain ⟨b, -, rfl⟩ := Option.map_eq_some_iff.1 h
    rfl
  · obtain ⟨x, -, rfl⟩ := Option.map_eq_some_iff.1 h
    rfl
  · obtain ⟨x, -, rfl⟩ := Option.map_eq_some_iff.1 h
    rfl
  · cases h

/-- A value that was computed from a literal operand. -/
theorem folded_value {op : Operator} {o : Option Atom} {r : Replacement Term}
    (h : (o.bind (unaryValue? op)).map (fun v => Replacement.part (access.atom v)) = some r) :
    Folded head operands r := by
  obtain ⟨v, hv, rfl⟩ := Option.map_eq_some_iff.1 h
  obtain ⟨a, -, hv⟩ := Option.bind_eq_some_iff.1 hv
  exact Folded.atom (isLiteral_unaryValue? hv)

theorem folded_number {o p : Option Float} {g : Float → Float → Option Float} {r : Replacement Term}
    (h : (o.bind fun x => p.bind fun y =>
      (g x y).map fun v => Replacement.part (access.atom (.number v))) = some r) :
    Folded head operands r := by
  obtain ⟨x, -, h⟩ := Option.bind_eq_some_iff.1 h
  obtain ⟨y, -, h⟩ := Option.bind_eq_some_iff.1 h
  obtain ⟨v, -, rfl⟩ := Option.map_eq_some_iff.1 h
  exact Folded.atom rfl

theorem folded_commutative {op : Operator} {r : Replacement Term}
    (h : (if op.isCommutative then
      op.accumulator?.bind fun f => mergeLiterals access f head operands else none) = some r) :
    Folded head operands r := by
  split at h
  · obtain ⟨f, -, h⟩ := Option.bind_eq_some_iff.1 h
    exact folded_mergeLiterals h
  · cases h

/-- All that folding makes of a form is a literal or built from its operands. -/
theorem folded_simplified {op : Operator} {r : Replacement Term}
    (h : simplified? access op head operands = some r) : Folded head operands r := by
  unfold simplified? at h
  split at h
  · cases h
    exact folded_reduceAnd
  · cases h
    exact folded_reduceOr
  · exact folded_value h
  · exact folded_value h
  · exact folded_value h
  · exact folded_mergeLeading h
  · exact folded_mergeLeading h
  · exact folded_number h
  · exact folded_number h
  · exact folded_commutative h

/-- Folding a form that was left by folding changes nothing. -/
def StaysFolded (op : Operator) (head : Term) (kept : List Term) : Prop :=
  op.arity.admits kept.length = true ∧
    (simplified? access op head kept = none ∨
      simplified? access op head kept = some (.list (head :: kept)))

theorem admits_atLeastOne {n : Nat} (h : 2 ≤ n) : Arity.atLeastOne.admits n = true := by
  have hone : 1 ≤ n := by omega
  simpa [Arity.admits] using hone

/-- Commutative operators have the same rule with their own arithmetic. -/
theorem staysFolded_commutative {op : Operator} {f : Float → Float → Float}
    (harity : op.arity = .atLeastOne)
    (hop : ∀ operands, simplified? access op head operands = mergeLiterals access f head operands)
    (hlength : 2 ≤ kept.length)
    (h : simplified? access op head operands = some (.list (head :: kept))) :
    StaysFolded op head kept := by
  rw [hop] at h
  refine ⟨?_, Or.inl ?_⟩
  · rw [harity]
    exact admits_atLeastOne hlength
  · rw [hop]
    exact mergeLiterals_again h

/-- The operators of one or two operands that are computed leave no list. -/
theorem simplified_ne_list {op : Operator}
    (hop : op = .not ∨ op = .bitNot ∨ op = .rem ∨ op = .shift) :
    simplified? access op head operands ≠ some (.list items) := by
  intro h
  unfold simplified? at h
  split at h
  · simp at hop
  · simp at hop
  · simp at hop
  · obtain ⟨v, -, hv⟩ := Option.map_eq_some_iff.1 h
    cases hv
  · obtain ⟨v, -, hv⟩ := Option.map_eq_some_iff.1 h
    cases hv
  · simp at hop
  · simp at hop
  · obtain ⟨x, -, h⟩ := Option.bind_eq_some_iff.1 h
    obtain ⟨y, -, h⟩ := Option.bind_eq_some_iff.1 h
    obtain ⟨v, -, hv⟩ := Option.map_eq_some_iff.1 h
    cases hv
  · obtain ⟨x, -, h⟩ := Option.bind_eq_some_iff.1 h
    obtain ⟨y, -, h⟩ := Option.bind_eq_some_iff.1 h
    obtain ⟨v, -, hv⟩ := Option.map_eq_some_iff.1 h
    cases hv
  · rcases hop with rfl | rfl | rfl | rfl <;> cases h

/-- A difference with its leading numbers merged has none left to merge. -/
theorem staysFolded_sub (hlength : 2 ≤ kept.length)
    (h : simplified? access .sub head operands = some (.list (head :: kept))) :
    StaysFolded .sub head kept := by
  have hmerge : mergeLeading access (· - ·) (fun _ => false) head operands
      = some (.list (head :: kept)) := by
    match operands with
    | [] => exact h
    | [t] =>
        -- A negated literal is an atom.
        obtain ⟨v, -, hv⟩ := Option.map_eq_some_iff.1 h
        cases hv
    | _ :: _ :: _ => exact h
  refine ⟨admits_atLeastOne hlength, Or.inl ?_⟩
  match kept with
  | [] => simp at hlength
  | [_] => simp at hlength
  | _ :: _ :: _ => exact mergeLeading_again hmerge

/-- Folding is idempotent on forms that stay forms. -/
theorem staysFolded {op : Operator} (hlength : 2 ≤ kept.length)
    (h : simplified? access op head operands = some (.list (head :: kept))) :
    StaysFolded op head kept := by
  cases op with
  | and => exact ⟨rfl, Or.inr (congrArg some (reduceAnd_again (Option.some.inj h)))⟩
  | or => exact ⟨rfl, Or.inr (congrArg some (reduceOr_again (Option.some.inj h)))⟩
  | sub => exact staysFolded_sub hlength h
  | div => exact ⟨admits_atLeastOne hlength, Or.inl (mergeLeading_again h)⟩
  | add => exact staysFolded_commutative rfl (fun _ => rfl) hlength h
  | mul => exact staysFolded_commutative rfl (fun _ => rfl) hlength h
  | bitAnd => exact staysFolded_commutative rfl (fun _ => rfl) hlength h
  | bitOr => exact staysFolded_commutative rfl (fun _ => rfl) hlength h
  | bitXor => exact staysFolded_commutative rfl (fun _ => rfl) hlength h
  | not => exact absurd h (simplified_ne_list (by simp))
  | bitNot => exact absurd h (simplified_ne_list (by simp))
  | rem => exact absurd h (simplified_ne_list (by simp))
  | shift => exact absurd h (simplified_ne_list (by simp))
  | _ => cases h

/-! ## Operator forms -/

/-- Folding leaves a list as it is. -/
def FoldStable (items : List Term) : Prop :=
  reduceOperator access items = .ok none ∨ reduceOperator access items = .ok (some (.list items))

/-- An operator form that is no unit is simplified unless that leaves it as it is. -/
theorem reduceOperator_head {ρ : Type} (a : Access ρ) {head : ρ} {op : Operator} {args : List ρ}
    (hop : (a.symbol? head).bind Operator.ofSymbol? = some op)
    (hne : args ≠ [] ∨ op.unit? = none) :
    reduceOperator a (head :: args) =
      if op.arity.admits args.length then
        .ok ((simplified? a op head args).filter fun r => !isUnchanged a (head :: args) r)
      else .error (.arity op args.length) := by
  unfold reduceOperator
  dsimp only
  rw [hop]
  cases args with
  | nil =>
      have hunit : op.unit? = none := hne.resolve_left (fun h => h rfl)
      dsimp only
      rw [hunit]
  | cons arg args => rfl

/-- Folding a form checks the number of its operands first, and drops a result that is equal to the
form. -/
theorem reduceOperator_cons {s : Symbol} {op : Operator} (hop : Operator.ofSymbol? s = some op)
    (hne : operands ≠ [] ∨ op.unit? = none) :
    reduceOperator access (.atom (.symbol s) :: operands) =
      if op.arity.admits operands.length then
        .ok ((simplified? access op (.atom (.symbol s)) operands).filter fun r =>
          !isUnchanged access (.atom (.symbol s) :: operands) r)
      else .error (.arity op operands.length) :=
  reduceOperator_head access hop hne

/-- A form that folding has left is not folded again. -/
theorem StaysFolded.foldStable {s : Symbol} {op : Operator} (hop : Operator.ofSymbol? s = some op)
    (hlength : 2 ≤ kept.length) (h : StaysFolded op (.atom (.symbol s)) kept) :
    FoldStable (.atom (.symbol s) :: kept) := by
  have hne : kept ≠ [] := by
    rintro rfl
    simp at hlength
  rw [FoldStable, reduceOperator_cons hop (Or.inl hne), if_pos h.1]
  rcases h.2 with hnone | hsame
  · rw [hnone]
    exact Or.inl rfl
  · rw [hsame]
    -- Whether the list counts as unchanged, it is the same list.
    cases hunchanged : isUnchanged access (.atom (.symbol s) :: kept)
        (.list (.atom (.symbol s) :: kept)) with
    | true => exact Or.inl (by simp [hunchanged])
    | false => exact Or.inr (by simp [hunchanged])

/-- What is simplified to a list stays that list. -/
theorem folded_of_reduceOperator {s : Symbol} {op : Operator} {r : Replacement Term}
    (hop : Operator.ofSymbol? s = some op) (hne : operands ≠ [] ∨ op.unit? = none)
    (h : reduceOperator access (.atom (.symbol s) :: operands) = .ok (some r)) :
    Folded (.atom (.symbol s)) operands r ∧ ∀ items', r = .list items' → FoldStable items' := by
  rw [reduceOperator_cons hop hne] at h
  split at h
  · have hsimplified := (Option.filter_eq_some_iff.1 (Except.ok.inj h)).1
    have hfolded := folded_simplified hsimplified
    refine ⟨hfolded, ?_⟩
    rintro items' rfl
    cases hfolded with
    | list hkept hlength => exact (staysFolded hlength hsimplified).foldStable hop hlength
  · cases h

/-- A list that is folded is headed by an operator; if a list is left, it is headed by the same
operator, and folding it again changes nothing. -/
theorem reduceOperator_eq_some {r : Replacement Term}
    (h : reduceOperator access items = .ok (some r)) :
    ∃ s operands, items = .atom (.symbol s) :: operands ∧ (Operator.ofSymbol? s).isSome = true ∧
      Folded (.atom (.symbol s)) operands r ∧ ∀ items', r = .list items' → FoldStable items' := by
  cases items with
  | nil => cases h
  | cons head operands =>
      cases hhead : (access.symbol? head).bind Operator.ofSymbol? with
      | none =>
          unfold reduceOperator at h
          dsimp only at h
          rw [hhead] at h
          cases h
      | some op =>
          rcases Option.bind_eq_some_iff.1 hhead with ⟨s, hs, hop⟩
          obtain rfl := Term.eq_symbol_of_view hs
          refine ⟨s, operands, rfl, by rw [hop]; rfl, ?_⟩
          -- Without operands an operator that has a unit is replaced by it.
          cases hunit : op.unit? with
          | none => exact folded_of_reduceOperator hop (Or.inr hunit) h
          | some unit =>
              cases operands with
              | cons t operands => exact folded_of_reduceOperator hop (Or.inl (by simp)) h
              | nil =>
                  unfold reduceOperator at h
                  dsimp only at h
                  rw [hhead] at h
                  dsimp only at h
                  rw [hunit] at h
                  cases h
                  exact ⟨.atom rfl, by simp⟩

end Reduction
end RegisterLisp
