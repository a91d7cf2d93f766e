import RegisterLisp.Proofs.Normalization
import Mathlib.Data.List.Induction
import Mathlib.Data.List.Permutation

/-!
# Folding keeps the value of arithmetic

An arithmetic expression is built from atoms with `+`, `-`, `*`, `/` and the bitwise operators.  Its
value depends on what the operators mean.  An `Interpretation` may give them any meaning that agrees
with the arithmetic of literals; the operands of a form are accumulated from the left.

Folding a difference or a quotient combines the literals it starts with, which is what evaluation
does first.  Folding a commutative form moves its literals behind the other operands and combines
them on their own, so there the order and the grouping of the operands must not matter
(`Regroupable`).  Nothing else is asked of the operators.
-/

namespace RegisterLisp

open Reduction
open Term (access normalize normalizeAll)

/-! ## Expressions -/

namespace Term

mutual

/-- Atoms, and forms of the operators that accumulate their operands. -/
def isArithmetic : Term → Bool
  | .atom _ => true
  | .list (.atom (.symbol s) :: operands) =>
      match Operator.ofSymbol? s with
      | some op =>
          op.accumulator?.isSome && (op.unit?.isSome || !operands.isEmpty) &&
            areArithmetic operands
      | none => false
  | _ => false

def areArithmetic : List Term → Bool
  | [] => true
  | t :: ts => isArithmetic t && areArithmetic ts

end

theorem areArithmetic_iff {ts : List Term} :
    areArithmetic ts = true ↔ ∀ t ∈ ts, isArithmetic t = true := by
  induction ts with
  | nil => simp [areArithmetic]
  | cons t ts ih => simp [areArithmetic, ih]

/-- A form of an operator is arithmetic if the operator accumulates and there is something to
accumulate. -/
theorem isArithmetic_form {s : Symbol} {op : Operator} (hs : Operator.ofSymbol? s = some op)
    {operands : List Term} :
    isArithmetic (.list (.atom (.symbol s) :: operands)) = true ↔
      op.accumulator?.isSome = true ∧ (op.unit?.isSome = true ∨ operands ≠ []) ∧
        ∀ t ∈ operands, isArithmetic t = true := by
  simp [isArithmetic, hs, areArithmetic_iff, and_assoc]

/-- An arithmetic expression is no nop. -/
theorem isNop_of_isArithmetic {t : Term} (h : isArithmetic t = true) : isNop access t = false := by
  cases t with
  | list items =>
      match items with
      | .atom (.symbol s) :: operands =>
          have hs : (Operator.ofSymbol? s).isSome = true := by
            cases hop : Operator.ofSymbol? s with
            | none => simp [isArithmetic, hop] at h
            | some op => rfl
          exact isNop_operator hs
  | _ => rfl

end Term

/-! ## Values -/

/-- A meaning of symbols, literals and operators that agrees with the arithmetic of literals. -/
structure Interpretation (V : Type*) where
  symbol : Symbol → V
  literal : Atom → V
  binary : Operator → V → V → V
  negate : V → V
  binary_literal : ∀ {op : Operator} {f : Float → Float → Float}, op.accumulator? = some f →
    ∀ x y, binary op (literal (.number x)) (literal (.number y)) = literal (.number (f x y))
  negate_literal : ∀ x, negate (literal (.number x)) = literal (.number (-x))

namespace Interpretation

variable {V : Type*} (I : Interpretation V)

def accumulate (op : Operator) : List V → V
  | [] => I.literal (.number (op.unit?.getD 0.0))
  | v :: vs => vs.foldl (I.binary op) v

def form (op : Operator) : List V → V
  | [v] => if op = .sub then I.negate v else v
  | vs => I.accumulate op vs

mutual

/-- The value of an arithmetic expression.  Any other term counts as `false`. -/
def value : Term → V
  | .atom (.symbol s) => I.symbol s
  | .atom a => I.literal a
  | .list (.atom (.symbol s) :: operands) =>
      match Operator.ofSymbol? s with
      | some op => I.form op (values operands)
      | none => I.literal (.bool false)
  | _ => I.literal (.bool false)

def values : List Term → List V
  | [] => []
  | t :: ts => value t :: values ts

end

theorem values_eq_map (ts : List Term) : I.values ts = ts.map I.value := by
  induction ts with
  | nil => rfl
  | cons t ts ih => rw [values, ih, List.map_cons]

/-- The value of a form is that of its operator on the values of its operands. -/
theorem value_form {s : Symbol} {op : Operator} (hs : Operator.ofSymbol? s = some op)
    (operands : List Term) :
    I.value (.list (.atom (.symbol s) :: operands)) = I.form op (operands.map I.value) := by
  simp [value, hs, values_eq_map]

/-! ## Order and grouping -/

/-- The values `vs` can be combined to `v`, two at a time, in some order and grouping. -/
inductive Combines (f : V → V → V) : List V → V → Prop
  | single (v : V) : Combines f [v] v
  | join {xs ys vs : List V} {x y : V} (hx : Combines f xs x) (hy : Combines f ys y)
      (hperm : vs.Perm (xs ++ ys)) : Combines f vs (f x y)

/-- The order and the grouping of values do not matter: however they are combined, the result is
that of accumulating them from the left. -/
def Regroupable (op : Operator) (vs : List V) : Prop :=
  ∀ v, Combines (I.binary op) vs v → v = I.accumulate op vs

/-- All results of combining at most `n` values two at a time, in any order and grouping. -/
def combinations (f : V → V → V) : Nat → List V → List V
  | 0, _ => []
  | _, [v] => [v]
  | n + 1, vs =>
      vs.permutations'.flatMap fun ws => (List.range vs.length).flatMap fun k =>
        (combinations f n (ws.take k)).flatMap fun x => (combinations f n (ws.drop k)).map (f x)

mutual

/-- Reordering and regrouping the operands of a commutative form of the expression does not change
the value of the form. -/
def Regroups : Term → Prop
  | .list (.atom (.symbol s) :: operands) =>
      (∀ op, Operator.ofSymbol? s = some op → op.isCommutative = true →
        I.Regroupable op (I.values operands)) ∧ RegroupsAll operands
  | _ => True

def RegroupsAll : List Term → Prop
  | [] => True
  | t :: ts => Regroups t ∧ RegroupsAll ts

end

variable {I} in
/-- Regrouping is asked of a form itself and of its operands. -/
theorem regroups_form {s : Symbol} {op : Operator} {operands : List Term}
    (hs : Operator.ofSymbol? s = some op)
    (h : op.isCommutative = true → I.Regroupable op (I.values operands))
    (hoperands : I.RegroupsAll operands) : I.Regroups (.list (.atom (.symbol s) :: operands)) := by
  refine ⟨?_, hoperands⟩
  intro op' hs' hcomm
  cases hs.symm.trans hs'
  exact h hcomm

/-- The order of the values does not matter. -/
theorem Combines.perm {f : V → V → V} {vs ws : List V} {v : V} (h : Combines f ws v)
    (hperm : vs.Perm ws) : Combines f vs v := by
  cases h with
  | single =>
      rw [List.perm_singleton.1 hperm]
      exact Combines.single v
  | join hx hy hxy => exact Combines.join hx hy (hperm.trans hxy)

theorem Combines.ne_nil {f : V → V → V} {vs : List V} {v : V} (h : Combines f vs v) : vs ≠ [] := by
  induction h with
  | single v => simp
  | join hx hy hperm ihx ihy =>
      rintro rfl
      exact ihx (List.append_eq_nil_iff.1 hperm.nil_eq.symm).1

/-- All ways to combine values are found by enumeration. -/
theorem Combines.mem_combinations {f : V → V → V} {vs : List V} {v : V} (h : Combines f vs v)
    {n : Nat} (hn : vs.length ≤ n) : v ∈ combinations f n vs := by
  induction h generalizing n with
  | single v =>
      cases n with
      | zero => simp at hn
      | succ n => simp [combinations]
  | @join xs ys vs x y hx hy hperm ihx ihy =>
      have hxs := List.length_pos_iff.2 hx.ne_nil
      have hys := List.length_pos_iff.2 hy.ne_nil
      have hlength := hperm.length_eq
      rw [List.length_append] at hlength
      match n, vs with
      | 0, _ => omega
      | n + 1, [] => simp at hlength; omega
      | n + 1, [v] => simp at hlength; omega
      | n + 1, v :: w :: ws =>
          -- Both parts are shorter than the whole.
          have hmemx := ihx (n := n) (by omega)
          have hmemy := ihy (n := n) (by omega)
          rw [combinations.eq_3 _ _ _ (by simp)]
          simp only [List.mem_flatMap, List.mem_map, List.mem_range]
          exact ⟨xs ++ ys, List.mem_permutations'.2 hperm.symm, xs.length, by omega, x,
            by simpa using hmemx, y, by simpa using hmemy, rfl⟩

variable {I} in
/-- Whether values are regroupable can be decided by going through all combinations. -/
theorem regroupable_of_combinations {op : Operator} {vs : List V}
    (h : ∀ v ∈ combinations (I.binary op) vs.length vs, v = I.accumulate op vs) :
    I.Regroupable op vs :=
  fun v hv => h v (hv.mem_combinations le_rfl)

/-- Accumulating from the left is one way to combine. -/
theorem combines_accumulate (op : Operator) (v : V) (vs : List V) :
    Combines (I.binary op) (v :: vs) (I.accumulate op (v :: vs)) := by
  induction vs using List.reverseRecOn with
  | nil => exact Combines.single v
  | append_singleton vs w ih =>
      rw [accumulate, List.foldl_append]
      exact Combines.join ih (Combines.single w) (List.Perm.refl _)

theorem accumulate_append (op : Operator) (v : V) (vs ws : List V) :
    I.accumulate op (v :: vs ++ ws) = I.accumulate op (I.accumulate op (v :: vs) :: ws) :=
  List.foldl_append

/-- Some of the values may be combined first, and the result accumulated after the others. -/
theorem combines_merged {op : Operator} {vs others ws : List V} {w : V}
    (hperm : vs.Perm (others ++ ws)) (hw : Combines (I.binary op) ws w) :
    Combines (I.binary op) vs (I.accumulate op (others ++ [w])) := by
  cases others with
  | nil => exact hw.perm hperm
  | cons o os =>
      rw [List.cons_append, accumulate, List.foldl_append]
      exact Combines.join (I.combines_accumulate op o os) hw hperm

/-! ## Folding keeps values -/

structure Stands (t : Term) (v : V) : Prop where
  isArithmetic : t.isArithmetic = true
  value_eq : I.value t = v

section Folding

variable {s : Symbol} {op : Operator} {f : Float → Float → Float} {operands kept : List Term}
  {r : Replacement Term}

/-- Accumulating literals gives the literal that folding computes. -/
theorem accumulate_literals (hf : op.accumulator? = some f) (x : Float) (xs : List Float) :
    I.accumulate op ((x :: xs).map fun y => I.literal (.number y)) =
      I.literal (.number (xs.foldl f x)) := by
  rw [List.map_cons, accumulate]
  induction xs generalizing x with
  | nil => rfl
  | cons y ys ih =>
      rw [List.map_cons, List.foldl_cons, I.binary_literal hf x y]
      exact ih (f x y)

/-- Folding literals is one, too. -/
theorem combines_literals (hf : op.accumulator? = some f) (x : Float) (xs : List Float) :
    Combines (I.binary op) ((x :: xs).map fun y => I.literal (.number y))
      (I.literal (.number (xs.foldl f x))) := by
  rw [← I.accumulate_literals hf]
  exact I.combines_accumulate op _ _

/-- A form is rebuilt around operands that are accumulated. -/
theorem stands_rebuild (hs : Operator.ofSymbol? s = some op) (hf : op.accumulator? = some f)
    {empty : Atom} {v : V} (hne : kept ≠ []) (hkept : ∀ t ∈ kept, t.isArithmetic = true)
    (hv : I.accumulate op (kept.map I.value) = v) :
    I.Stands (rebuild access (.atom (.symbol s)) kept empty).toTerm v := by
  match kept with
  | [] => exact absurd rfl hne
  | [t] => exact ⟨hkept t (by simp), hv⟩
  | t :: u :: us =>
      refine ⟨?_, (I.value_form hs (t :: u :: us)).trans hv⟩
      exact (Term.isArithmetic_form hs).2 ⟨by simp [hf], Or.inr hne, hkept⟩

/-! ### Commutative forms -/

theorem eq_number_of_number? {t : Term} {x : Float} (h : access.number? t = some x) :
    t = .atom (.number x) := by
  cases t with
  | atom a =>
      cases a with
      | number y =>
          cases h
          rfl
      | _ => cases h
  | _ => cases h

/-- The operands that are literal numbers. -/
theorem filter_isSome_number? (operands : List Term) :
    (operands.filter fun t => (access.number? t).isSome) =
      (operands.filterMap access.number?).map fun x => .atom (.number x) := by
  induction operands with
  | nil => rfl
  | cons t ts ih =>
      cases ht : access.number? t with
      | none => simp [ht, ih]
      | some x =>
          rw [List.filter_cons_of_pos (by simp [ht]), List.filterMap_cons_some ht, List.map_cons,
            ih, eq_number_of_number? ht]

/-- The operands are the others and the literal numbers, in another order. -/
theorem perm_others_numbers (operands : List Term) :
    operands.Perm ((operands.filter fun t => (access.number? t).isNone) ++
      (operands.filterMap access.number?).map fun x => .atom (.number x)) := by
  have hperm := List.filter_append_perm (fun t => (access.number? t).isNone) operands
  have hnumbers : (operands.filter fun t => !(access.number? t).isNone) =
      (operands.filterMap access.number?).map fun x => .atom (.number x) := by
    rw [← filter_isSome_number?]
    simp
  rw [hnumbers] at hperm
  exact hperm.symm

/-- Moving the literals to the end and combining them does not change a regroupable form. -/
theorem stands_mergeLiterals (hs : Operator.ofSymbol? s = some op)
    (hf : op.accumulator? = some f) (hoperands : ∀ t ∈ operands, t.isArithmetic = true)
    (hregroup : I.Regroupable op (operands.map I.value))
    (h : mergeLiterals access f (.atom (.symbol s)) operands = some r) :
    I.Stands r.toTerm (I.accumulate op (operands.map I.value)) := by
  unfold mergeLiterals at h
  split at h
  · rename_i x y rest hnumbers
    cases h
    have hperm := (perm_others_numbers operands).map I.value
    rw [List.map_append, List.map_map, hnumbers] at hperm
    -- The literals are combined on their own, and the result comes behind the other operands.
    have hmerged := hregroup _ (I.combines_merged hperm (I.combines_literals hf x (y :: rest)))
    rw [← hmerged]
    refine I.stands_rebuild hs hf (by simp) ?_ ?_
    · intro t ht
      rcases List.mem_append.1 ht with ht | ht
      · exact hoperands t (List.mem_filter.1 ht).1
      · rw [List.mem_singleton.1 ht]
        rfl
    · rw [List.map_append]
      rfl
  · cases h

/-! ### Differences and quotients -/

/-- Some of the numbers that operands start with are the first of the operands. -/
theorem eq_append_drop_of_isPrefix {xs : List Float} {operands : List Term}
    (h : xs <+: leadingNumbers access operands) :
    operands = (xs.map fun x => .atom (.number x)) ++ operands.drop xs.length := by
  induction xs generalizing operands with
  | nil => rfl
  | cons x xs ih =>
      cases operands with
      | nil => simp [leadingNumbers] at h
      | cons t ts =>
          cases ht : access.number? t with
          | none => simp [leadingNumbers, ht] at h
          | some y =>
              simp only [leadingNumbers, ht, List.cons_prefix_cons] at h
              obtain ⟨rfl, h⟩ := h
              rw [eq_number_of_number? ht, List.map_cons, List.cons_append, List.length_cons,
                List.drop_succ_cons]
              exact congrArg _ (ih h)

/-- Combining the literals that operands start with is what evaluation does first. -/
theorem stands_mergeLeading (hs : Operator.ofSymbol? s = some op)
    (hf : op.accumulator? = some f) {stop : Float → Bool}
    (hoperands : ∀ t ∈ operands, t.isArithmetic = true)
    (h : mergeLeading access f stop (.atom (.symbol s)) operands = some r) :
    I.Stands r.toTerm (I.accumulate op (operands.map I.value)) := by
  unfold mergeLeading at h
  split at h
  · cases h
  · rename_i x rest hnumbers
    split at h
    · cases h
    · generalize hruns : rest.takeWhile (fun y => !stop y) = run at h
      cases h
      -- The numbers that are merged are the first operands.
      have hprefix : x :: run <+: leadingNumbers access operands := by
        rw [hnumbers, ← hruns, List.cons_prefix_cons]
        exact ⟨rfl, List.takeWhile_prefix _⟩
      have hsplit := eq_append_drop_of_isPrefix hprefix
      refine I.stands_rebuild hs hf (by simp) ?_ ?_
      · intro t ht
        rcases List.mem_cons.1 ht with rfl | ht
        · rfl
        · exact hoperands t (List.mem_of_mem_drop ht)
      · calc I.accumulate op (I.literal (.number (run.foldl f x)) ::
                (operands.drop (run.length + 1)).map I.value)
            = I.accumulate op (((x :: run).map fun y => I.literal (.number y)) ++
                (operands.drop (run.length + 1)).map I.value) := by
              rw [← I.accumulate_literals hf]
              exact (I.accumulate_append op _ _ _).symm
          _ = I.accumulate op (operands.map I.value) := by
              conv_rhs => rw [hsplit, List.map_append, List.map_map]
              rfl

/-- A negated literal is the literal that folding computes. -/
theorem stands_negated {t : Term}
    (h : simplified? access .sub (.atom (.symbol s)) [t] = some r) :
    I.Stands r.toTerm (I.negate (I.value t)) := by
  obtain ⟨v, hv, rfl⟩ := Option.map_eq_some_iff.1 h
  obtain ⟨a, ha, hnegated⟩ := Option.bind_eq_some_iff.1 hv
  obtain ⟨x, hx, rfl⟩ := Option.map_eq_some_iff.1 hnegated
  have ht : access.number? t = some x := Option.bind_eq_some_iff.2 ⟨a, ha, hx⟩
  rw [eq_number_of_number? ht]
  exact ⟨rfl, (I.negate_literal x).symm⟩

/-! ### All operators -/

/-- Of the operators that accumulate only two are not commutative. -/
theorem accumulator?_cases (hf : op.accumulator? = some f) :
    op.isCommutative = true ∨ op = .sub ∨ op = .div := by
  cases op <;> simp_all [Operator.accumulator?, Operator.isCommutative]

theorem simplified?_commutative {head : Term} (hcomm : op.isCommutative = true)
    (hf : op.accumulator? = some f) :
    simplified? access op head operands = mergeLiterals access f head operands := by
  cases op <;> cases hcomm <;> cases hf <;> rfl

/-- But for a negation, a form accumulates its operands. -/
theorem form_eq_accumulate {vs : List V} (h : op ≠ .sub ∨ vs.length ≠ 1) :
    I.form op vs = I.accumulate op vs := by
  match vs with
  | [] => rfl
  | [v] =>
      have hop : op ≠ .sub := h.resolve_right fun hlength => hlength rfl
      simp [form, hop, accumulate]
  | _ :: _ :: _ => rfl

/-- A form that folding simplifies keeps its value, where regrouping is allowed. -/
theorem stands_simplified (hs : Operator.ofSymbol? s = some op) (hf : op.accumulator? = some f)
    (hoperands : ∀ t ∈ operands, t.isArithmetic = true)
    (hregroup : op.isCommutative = true → I.Regroupable op (operands.map I.value))
    (h : simplified? access op (.atom (.symbol s)) operands = some r) :
    I.Stands r.toTerm (I.form op (operands.map I.value)) := by
  rcases accumulator?_cases hf with hcomm | rfl | rfl
  · have hop : op ≠ .sub := by
      rintro rfl
      cases hcomm
    rw [simplified?_commutative hcomm hf] at h
    rw [I.form_eq_accumulate (Or.inl hop)]
    exact I.stands_mergeLiterals hs hf hoperands (hregroup hcomm) h
  · match operands with
    | [] => cases h
    | [t] => exact I.stands_negated h
    | t :: u :: us =>
        rw [I.form_eq_accumulate (Or.inr (by simp))]
        exact I.stands_mergeLeading hs rfl hoperands h
  · rw [I.form_eq_accumulate (Or.inl (by simp))]
    exact I.stands_mergeLeading hs rfl hoperands h

/-- An arithmetic form with an accepted number of operands. -/
theorem admits_accumulator (hf : op.accumulator? = some f) (hne : operands ≠ []) :
    op.arity.admits operands.length = true := by
  have harity : op.arity = .atLeastOne := by
    cases op <;> simp_all [Operator.accumulator?, Operator.arity, Operator.isUnary,
      Operator.isBinary]
  have hlength : 1 ≤ operands.length := List.length_pos_iff.2 hne
  simpa [harity, Arity.admits] using hlength

/-- Folding succeeds on an arithmetic form, and leaves its value unchanged. -/
theorem stands_afterFolding (hs : Operator.ofSymbol? s = some op)
    (hform : (Term.list (.atom (.symbol s) :: operands)).isArithmetic = true)
    (hregroup : op.isCommutative = true → I.Regroupable op (operands.map I.value)) :
    ∃ t, Term.afterFolding (.atom (.symbol s) :: operands) = .ok t ∧
      I.Stands t (I.form op (operands.map I.value)) := by
  obtain ⟨haccumulator, hunit, hoperands⟩ := (Term.isArithmetic_form hs).1 hform
  obtain ⟨f, hf⟩ := Option.isSome_iff_exists.1 haccumulator
  by_cases hne : operands = []
  · subst hne
    obtain ⟨x, hx⟩ := Option.isSome_iff_exists.1 (hunit.resolve_right (by simp))
    have hhead : (access.symbol? (.atom (.symbol s))).bind Operator.ofSymbol? = some op := hs
    refine ⟨.atom (.number x), ?_, rfl, ?_⟩
    · simp [Term.afterFolding, reduceOperator, hhead, hx]
      rfl
    · simp [form, accumulate, hx]
      rfl
  · have hadmits := admits_accumulator hf hne
    cases hsimplified : simplified? access op (.atom (.symbol s)) operands with
    | none =>
        exact ⟨_, Term.afterFolding_of_none hs (Or.inl hne) hadmits hsimplified, hform,
          I.value_form hs operands⟩
    | some r =>
        refine ⟨_, Term.afterFolding_of_some hs (Or.inl hne) hadmits hsimplified, ?_⟩
        split
        · exact ⟨hform, I.value_form hs operands⟩
        · exact I.stands_simplified hs hf hoperands hregroup hsimplified

end Folding

/-! ## Normalizing keeps values -/

mutual

/-- Normalizing keeps the value of an expression, by its structure. -/
theorem stands_normalize : ∀ {e : Term}, e.isArithmetic = true → I.Regroups e →
    ∃ e', normalize e = .ok e' ∧ I.Stands e' (I.value e)
  | .atom a, _, _ => ⟨.atom a, rfl, rfl, rfl⟩
  | .list (.atom (.symbol s) :: operands), h, hregroup => by
      cases hs : Operator.ofSymbol? s with
      | none => simp [Term.isArithmetic, hs] at h
      | some op =>
          obtain ⟨haccumulator, hunit, hoperands⟩ := (Term.isArithmetic_form hs).1 h
          obtain ⟨operands', hnormal, hoperands', hvalues⟩ :=
            stands_normalizeAll (Term.areArithmetic_iff.2 hoperands) hregroup.2
          -- The form with normal operands has the same operand values.
          have hlength : operands'.length = operands.length := by
            simpa using congrArg List.length hvalues
          have hform : (Term.list (.atom (.symbol s) :: operands')).isArithmetic = true := by
            refine (Term.isArithmetic_form hs).2 ⟨haccumulator, ?_, hoperands'⟩
            rwa [← List.length_pos_iff, hlength, List.length_pos_iff]
          have hregroup' : op.isCommutative = true →
              I.Regroupable op (operands'.map I.value) := by
            intro hcomm
            rw [hvalues, ← I.values_eq_map]
            exact hregroup.1 op hs hcomm
          obtain ⟨e', he', hstands⟩ := I.stands_afterFolding hs hform hregroup'
          rw [hvalues, ← I.value_form hs] at hstands
          refine ⟨e', ?_, hstands⟩
          rw [Term.normalize_operator (by rw [hs]; rfl) hnormal
            fun t ht => Term.isNop_of_isArithmetic (hoperands' t ht), he']

theorem stands_normalizeAll : ∀ {es : List Term}, Term.areArithmetic es = true →
    I.RegroupsAll es → ∃ es', normalizeAll es = .ok es' ∧ (∀ t ∈ es', t.isArithmetic = true) ∧
      es'.map I.value = es.map I.value
  | [], _, _ => ⟨[], rfl, by simp, rfl⟩
  | e :: es, h, hregroup => by
      rw [Term.areArithmetic, Bool.and_eq_true] at h
      obtain ⟨e', he', hstands⟩ := stands_normalize h.1 hregroup.1
      obtain ⟨es', hes', harithmetic, hvalues⟩ := stands_normalizeAll h.2 hregroup.2
      refine ⟨e' :: es', ?_, ?_, ?_⟩
      · rw [Term.normalizeAll_cons, he', hes']
        rfl
      · simpa using ⟨hstands.isArithmetic, harithmetic⟩
      · rw [List.map_cons, List.map_cons, hstands.value_eq, hvalues]

end

/-- Normalizing an arithmetic expression succeeds and leaves its value unchanged. -/
theorem normalize_preserves_value {e : Term} (h : e.isArithmetic = true) (hregroup : I.Regroups e) :
    ∃ e', normalize e = .ok e' ∧ e'.isArithmetic = true ∧ I.value e' = I.value e := by
  obtain ⟨e', he', hstands⟩ := I.stands_normalize h hregroup
  exact ⟨e', he', hstands.isArithmetic, hstands.value_eq⟩

/-- The arithmetic of folding itself, with all symbols standing for 4. -/
def floats : Interpretation Float where
  symbol _ := 4.0
  literal a := a.number?.getD 0.0
  binary op := op.accumulator?.getD fun x _ => x
  negate x := -x
  binary_literal h x y := by simp [h, Atom.number?]
  negate_literal _ := rfl

/-- A difference that holds a sum with a symbol between literals, a quotient and a negated form. -/
def mixedDifference : Term :=
  .list [.symbol ⟨"-"⟩,
    .list [.symbol ⟨"+"⟩, .atom (.number 1.0), .symbol ⟨"x"⟩, .atom (.number 2.0)],
    .list [.symbol ⟨"/"⟩, .atom (.number 12.0), .atom (.number 3.0), .symbol ⟨"x"⟩,
      .list [.symbol ⟨"*"⟩]],
    .list [.symbol ⟨"-"⟩,
      .list [.symbol ⟨"bitwise-or"⟩, .atom (.number 5.0), .atom (.number 2.0)]]]

theorem regroups_mixedDifference : floats.Regroups mixedDifference := by
  have hadd : floats.Regroupable .add [1.0, 4.0, 2.0] :=
    regroupable_of_combinations (by decide +kernel)
  have hor : floats.Regroupable .bitOr [5.0, 2.0] :=
    regroupable_of_combinations (by decide +kernel)
  have hmul : floats.Regroupable .mul [] := regroupable_of_combinations (by decide +kernel)
  have hsum : floats.Regroups (.list [.symbol ⟨"+"⟩, .atom (.number 1.0), .symbol ⟨"x"⟩,
      .atom (.number 2.0)]) :=
    regroups_form rfl (fun _ => hadd) ⟨trivial, trivial, trivial, trivial⟩
  have hone : floats.Regroups (.list [.symbol ⟨"*"⟩]) := regroups_form rfl (fun _ => hmul) trivial
  have hbits : floats.Regroups (.list [.symbol ⟨"bitwise-or"⟩, .atom (.number 5.0),
      .atom (.number 2.0)]) :=
    regroups_form rfl (fun _ => hor) ⟨trivial, trivial, trivial⟩
  refine regroups_form rfl (by simp [Operator.isCommutative]) ⟨hsum, ?_, ?_, trivial⟩
  · exact regroups_form rfl (by simp [Operator.isCommutative])
      ⟨trivial, trivial, trivial, hone, trivial⟩
  · exact regroups_form rfl (by simp [Operator.isCommutative]) ⟨hbits, trivial⟩

theorem normalize_preserves_value_mixed :
    mixedDifference.isArithmetic = true ∧ floats.Regroups mixedDifference ∧
      floats.value mixedDifference = 13.0 ∧
      ∃ e', normalize mixedDifference = .ok e' ∧ e'.isArithmetic = true ∧
        floats.value e' = floats.value mixedDifference :=
  ⟨by decide +kernel, regroups_mixedDifference, by decide +kernel,
    floats.normalize_preserves_value (by decide +kernel) regroups_mixedDifference⟩

end Interpretation
end RegisterLisp
