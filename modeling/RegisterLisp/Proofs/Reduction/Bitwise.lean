import RegisterLisp.Proofs.Number.Bits
import RegisterLisp.Proofs.Reduction.Arithmetic

/-!
# Folding bitwise operators

The bitwise operators take a float to a word, work on its bits and take the result back.  On the
integers that floats hold exactly nothing is lost on the way, so the operators are those of two's
complement, for which order and grouping do not matter:

1. whatever is combined from such integers, in any order and grouping, is again one of them and the
   same float (`combined_of_combines`, `Combined.unique`),
2. an expression of literals is folded to the literal that it stands for (`normalize_term`),
3. a form keeps its value if its literals are moved behind its other operands and combined, whatever
   these operands are (`value_afterFolding`).
-/

namespace RegisterLisp

open Number Reduction Interpretation
open Term (access normalizeAll afterFolding)

namespace BitOperator

variable {c : BitOperator} {xs : List Float} {r : Float}

/-! ## Order and grouping -/

/-- Integers are combined to the same result in any order and grouping. -/
theorem foldl_of_combines {ns : List ℤ} {m : ℤ} (h : Combines c.onIntegers ns m) (k : ℤ) :
    ns.foldl c.onIntegers k = c.onIntegers k m := by
  induction h generalizing k with
  | single m => rfl
  | @join ms ns ks m n hm hn hperm ihm ihn =>
      calc ks.foldl c.onIntegers k
          = (ms ++ ns).foldl c.onIntegers k := hperm.foldl_eq k
        _ = c.onIntegers (c.onIntegers k m) n := by rw [List.foldl_append, ihm, ihn]
        _ = c.onIntegers k (c.onIntegers m n) := c.onIntegers_assoc k m n

/-- The integer that an operator makes of a list. -/
def total (c : BitOperator) (ns : List ℤ) : ℤ :=
  ns.foldl c.onIntegers c.unit

/-- However integers are combined, the result is the same. -/
theorem eq_total_of_combines {ns : List ℤ} {m : ℤ} (h : Combines c.onIntegers ns m) :
    m = c.total ns := by
  rw [total, foldl_of_combines h, c.onIntegers_unit]

/-- What is known of a float that has been combined from others: it is the integer combined from
theirs, and the negative zero only if there was nothing to combine. -/
structure Combined (c : BitOperator) (xs : List Float) (r : Float) : Prop where
  isWhole : IsWhole r
  combines : Combines c.onIntegers (xs.map integer) (integer r)
  canonical : xs = [r] ∨ 2 ≤ xs.length ∧ ofWord (toWord r) = r

/-- Two floats that were combined from others can be combined further. -/
theorem Combined.join {ys zs : List Float} {x y : Float} (hx : c.Combined xs x)
    (hy : c.Combined ys y) (hperm : zs.Perm (xs ++ ys)) : c.Combined zs (c.onFloats x y) := by
  have hr := holds_onFloats c hx.isWhole hy.isWhole
  refine ⟨hr.isWhole, ?_, Or.inr ⟨?_, hr.canonical⟩⟩
  · rw [hr.integer_eq]
    refine Combines.join hx.combines hy.combines ?_
    rw [← List.map_append]
    exact hperm.map integer
  · have hxs := List.length_pos_iff.2 hx.combines.ne_nil
    have hys := List.length_pos_iff.2 hy.combines.ne_nil
    rw [List.length_map] at hxs hys
    rw [hperm.length_eq, List.length_append]
    omega

/-- Whatever the grouping, the float is the integer combined from all. -/
theorem combined_of_combines (h : Combines c.onFloats xs r) (hxs : ∀ x ∈ xs, IsWhole x) :
    c.Combined xs r := by
  induction h with
  | single x => exact ⟨hxs x (by simp), Combines.single _, Or.inl rfl⟩
  | join hx hy hperm ihx ihy =>
      refine Combined.join (ihx fun z hz => ?_) (ihy fun z hz => ?_) hperm
      · exact hxs z (hperm.mem_iff.2 (List.mem_append_left _ hz))
      · exact hxs z (hperm.mem_iff.2 (List.mem_append_right _ hz))

/-- So the grouping does not matter for the float, either. -/
theorem Combined.unique {r' : Float} (h : c.Combined xs r) (h' : c.Combined xs r') : r = r' := by
  rcases h.canonical with rfl | ⟨hlength, hr⟩
  · rcases h'.canonical with heq | ⟨hlength, -⟩
    · exact List.head_eq_of_cons_eq heq
    · simp at hlength
  · rcases h'.canonical with rfl | ⟨-, hr'⟩
    · simp at hlength
    · have hinteger : integer r = integer r' :=
        (eq_total_of_combines h.combines).trans (eq_total_of_combines h'.combines).symm
      exact Holds.unique ⟨h.isWhole, hinteger, hr⟩ ⟨h'.isWhole, rfl, hr'⟩

/-! ## Forms -/

theorem binary_operator (c : BitOperator) : floats.binary c.operator = c.onFloats := by
  cases c <;> rfl

/-- Folding from the left is one grouping. -/
theorem combines_foldl (c : BitOperator) (x : Float) (xs : List Float) :
    Combines c.onFloats (x :: xs) (xs.foldl c.onFloats x) := by
  rw [← binary_operator]
  exact floats.combines_accumulate c.operator x xs

theorem isCommutative_operator (c : BitOperator) : c.operator.isCommutative = true := by
  cases c <;> rfl

theorem ofSymbol?_name (c : BitOperator) :
    Operator.ofSymbol? ⟨c.operator.name⟩ = some c.operator := by
  cases c <;> rfl

/-- What folding makes of a form of a bitwise operator. -/
theorem afterFolding_eq {s : Symbol} (hs : Operator.ofSymbol? s = some c.operator)
    {operands : List Term} (hne : operands ≠ []) :
    afterFolding (.atom (.symbol s) :: operands) = .ok
      ((mergeLiterals access c.onFloats (.atom (.symbol s)) operands).elim
        (.list (.atom (.symbol s) :: operands)) fun new =>
          if isUnchanged access (.atom (.symbol s) :: operands) new then
            .list (.atom (.symbol s) :: operands) else new.toTerm) := by
  have hf := c.accumulator?_operator
  have hadmits := admits_accumulator hf hne
  have hsimplified : simplified? access c.operator (.atom (.symbol s)) operands =
      mergeLiterals access c.onFloats (.atom (.symbol s)) operands :=
    simplified?_commutative c.isCommutative_operator hf
  cases hmerged : mergeLiterals access c.onFloats (.atom (.symbol s)) operands with
  | none =>
      exact Term.afterFolding_of_none hs (Or.inl hne) hadmits (hsimplified.trans hmerged)
  | some new =>
      exact Term.afterFolding_of_some hs (Or.inl hne) hadmits (hsimplified.trans hmerged)

end BitOperator

/-! ## Expressions of literals -/

/-- Expressions made of literal integers with the bitwise operators. -/
inductive Bitwise
  | literal (x : Float) (h : IsWhole x)
  | complement (e : Bitwise)
  | combine (c : BitOperator) (first second : Bitwise) (rest : List Bitwise)

namespace Bitwise

mutual

def term : Bitwise → Term
  | .literal x _ => .atom (.number x)
  | .complement e => .list [.atom (.symbol ⟨Operator.bitNot.name⟩), e.term]
  | .combine c first second rest =>
      .list (.atom (.symbol ⟨c.operator.name⟩) :: first.term :: second.term :: terms rest)

def terms : List Bitwise → List Term
  | [] => []
  | e :: es => e.term :: terms es

end

mutual

/-- The integer that the expression stands for, in two's complement. -/
def meaning : Bitwise → ℤ
  | .literal x _ => integer x
  | .complement e => Int.lnot e.meaning
  | .combine c first second rest => c.total (first.meaning :: second.meaning :: meanings rest)

def meanings : List Bitwise → List ℤ
  | [] => []
  | e :: es => e.meaning :: meanings es

end

def literals (xs : List Float) : List Term :=
  xs.map fun x => .atom (.number x)

theorem isNop_literals {xs : List Float} : ∀ t ∈ literals xs, isNop access t = false := by
  intro t ht
  obtain ⟨x, -, rfl⟩ := List.mem_map.1 ht
  rfl

/-- A complement of a literal is folded. -/
theorem normalize_complement {t : Term} {x : Float}
    (ht : Term.normalize t = .ok (.atom (.number x))) :
    Term.normalize (.list [.atom (.symbol ⟨Operator.bitNot.name⟩), t]) =
      .ok (.atom (.number (Number.complement x))) := by
  have hall : normalizeAll [t] = .ok (literals [x]) := by
    rw [Term.normalizeAll_cons, ht]
    rfl
  rw [Term.normalize_operator rfl hall isNop_literals]
  rfl

theorem filterMap_literals (xs : List Float) : (literals xs).filterMap access.number? = xs := by
  rw [literals, List.filterMap_map]
  exact List.filterMap_some

theorem filter_literals (xs : List Float) :
    ((literals xs).filter fun t => (access.number? t).isNone) = [] := by
  rw [literals, List.filter_map, List.map_eq_nil_iff]
  exact List.filter_eq_nil_iff.2 fun x _ => Bool.false_ne_true

/-- A form of literals alone becomes the literal that is combined from them. -/
theorem normalize_combine {c : BitOperator} {ts : List Term} {x y : Float} {xs : List Float}
    (h : normalizeAll ts = .ok (literals (x :: y :: xs))) :
    Term.normalize (.list (.atom (.symbol ⟨c.operator.name⟩) :: ts)) =
      .ok (.atom (.number ((y :: xs).foldl c.onFloats x))) := by
  have hs := c.ofSymbol?_name
  have hmerged : mergeLiterals access c.onFloats (.atom (.symbol ⟨c.operator.name⟩))
      (literals (x :: y :: xs)) =
        some (.part (.atom (.number ((y :: xs).foldl c.onFloats x)))) := by
    rw [mergeLiterals, filterMap_literals, filter_literals]
    rfl
  rw [Term.normalize_operator (by rw [hs]; rfl) h isNop_literals,
    BitOperator.afterFolding_eq hs (by simp [literals]), hmerged]
  rfl

mutual

/-- Folding an expression gives the literal that it stands for. -/
theorem normalize_term : ∀ e : Bitwise, ∃ x, Term.normalize e.term = .ok (.atom (.number x)) ∧
    IsWhole x ∧ integer x = e.meaning
  | .literal x h => ⟨x, rfl, h, rfl⟩
  | .complement e => by
      obtain ⟨x, hx, hwhole, hinteger⟩ := normalize_term e
      have hholds := holds_complement hwhole
      refine ⟨_, normalize_complement hx, hholds.isWhole, ?_⟩
      rw [hholds.integer_eq, hinteger]
      rfl
  | .combine c first second rest => by
      obtain ⟨x, hx, hxwhole, hxinteger⟩ := normalize_term first
      obtain ⟨y, hy, hywhole, hyinteger⟩ := normalize_term second
      obtain ⟨zs, hzs, hzswhole, hzsinteger⟩ := normalizeAll_terms rest
      -- All operands have become literals, so the form is folded as a whole.
      have hall : normalizeAll (first.term :: second.term :: terms rest) =
          .ok (literals (x :: y :: zs)) := by
        rw [Term.normalizeAll_cons, hx, Term.normalizeAll_cons, hy, hzs]
        rfl
      have hwhole : ∀ z ∈ x :: y :: zs, IsWhole z := by
        simpa using ⟨hxwhole, hywhole, hzswhole⟩
      have hcombined := BitOperator.combined_of_combines (c.combines_foldl x (y :: zs)) hwhole
      refine ⟨_, normalize_combine hall, hcombined.isWhole, ?_⟩
      rw [BitOperator.eq_total_of_combines hcombined.combines, List.map_cons, List.map_cons,
        hxinteger, hyinteger, hzsinteger]
      rfl

/-- Expressions fold to whole literals with the integers that they stand for. -/
theorem normalizeAll_terms : ∀ es : List Bitwise, ∃ xs,
    normalizeAll (terms es) = .ok (literals xs) ∧ (∀ x ∈ xs, IsWhole x) ∧
      xs.map integer = meanings es
  | [] => ⟨[], rfl, by simp, rfl⟩
  | e :: es => by
      obtain ⟨x, hx, hwhole, hinteger⟩ := normalize_term e
      obtain ⟨xs, hxs, hwholes, hintegers⟩ := normalizeAll_terms es
      refine ⟨x :: xs, ?_, by simpa using ⟨hwhole, hwholes⟩, ?_⟩
      · rw [terms, Term.normalizeAll_cons, hx, hxs]
        rfl
      · rw [List.map_cons, hinteger, hintegers]
        rfl

end

end Bitwise

/-! ## Forms with other operands -/

/-- Literals stand for themselves, and a form of a bitwise operator combines its operands from the
left.  Nothing is said about other terms. -/
structure BitEvaluation (value : Term → Float) : Prop where
  number : ∀ x, value (.atom (.number x)) = x
  form : ∀ {s : Symbol} {c : BitOperator}, Operator.ofSymbol? s = some c.operator →
    ∀ t ts, value (.list (.atom (.symbol s) :: t :: ts)) =
      (ts.map value).foldl c.onFloats (value t)

namespace BitEvaluation

variable {value : Term → Float} {s : Symbol} {c : BitOperator} {operands : List Term}

/-- The value of a form is combined from those of its operands. -/
theorem combines_form (h : BitEvaluation value) (hs : Operator.ofSymbol? s = some c.operator)
    (hne : operands ≠ []) :
    Combines c.onFloats (operands.map value)
      (value (.list (.atom (.symbol s) :: operands))) := by
  cases operands with
  | nil => exact absurd rfl hne
  | cons t ts =>
      rw [h.form hs]
      exact c.combines_foldl _ _

/-- The form that is left after merging literals has its operands accumulated. -/
theorem value_rebuild (h : BitEvaluation value) (hs : Operator.ofSymbol? s = some c.operator)
    {kept : List Term} (hne : kept ≠ []) (empty : Atom) :
    value (rebuild access (.atom (.symbol s)) kept empty).toTerm =
      floats.accumulate c.operator (kept.map value) := by
  cases kept with
  | nil => exact absurd rfl hne
  | cons t ts =>
      cases ts with
      | nil => rfl
      | cons u us =>
          rw [List.map_cons, accumulate, c.binary_operator]
          exact h.form hs t (u :: us)

/-- With the literals combined on their own, the operands are combined in another order. -/
theorem combines_mergeLiterals (h : BitEvaluation value)
    (hs : Operator.ofSymbol? s = some c.operator) {new : Replacement Term}
    (hnew : mergeLiterals access c.onFloats (.atom (.symbol s)) operands = some new) :
    Combines c.onFloats (operands.map value) (value new.toTerm) := by
  unfold mergeLiterals at hnew
  split at hnew
  · rename_i x y rest hnumbers
    cases hnew
    -- The values are those of the other operands and, behind them, the literals.
    have hperm := (perm_others_numbers operands).map value
    have hliterals : ((x :: y :: rest).map fun z => .atom (.number z)).map value =
        x :: y :: rest := by
      rw [List.map_map]
      exact List.map_id'' h.number _
    rw [List.map_append, hnumbers, hliterals] at hperm
    have hmerged := floats.combines_merged hperm
      (floats.combines_accumulate c.operator x (y :: rest))
    have hlast : [access.atom (.number ((y :: rest).foldl c.onFloats x))].map value =
        [(y :: rest).foldl c.onFloats x] := congrArg (fun z => [z]) (h.number _)
    rw [h.value_rebuild hs (by simp), List.map_append, hlast, ← c.binary_operator]
    exact hmerged
  · cases hnew

/-- Folding a form of integers that floats hold leaves its value unchanged. -/
theorem value_afterFolding (h : BitEvaluation value) (hs : Operator.ofSymbol? s = some c.operator)
    (hne : operands ≠ []) (hoperands : ∀ t ∈ operands, IsWhole (value t)) :
    ∃ t, afterFolding (.atom (.symbol s) :: operands) = .ok t ∧
      value t = value (.list (.atom (.symbol s) :: operands)) ∧
      c.Combined (operands.map value) (value t) := by
  have hwhole : ∀ x ∈ operands.map value, IsWhole x := by simpa using hoperands
  have hform := BitOperator.combined_of_combines (h.combines_form hs hne) hwhole
  refine ⟨_, BitOperator.afterFolding_eq hs hne, ?_⟩
  cases hmerged : mergeLiterals access c.onFloats (.atom (.symbol s)) operands with
  | none => exact ⟨rfl, hform⟩
  | some new =>
      rw [Option.elim_some]
      split
      · exact ⟨rfl, hform⟩
      · -- Both values are combined from the same operands.
        have hnew := BitOperator.combined_of_combines (h.combines_mergeLiterals hs hmerged) hwhole
        exact ⟨hnew.unique hform, hnew⟩

/-- The arithmetic of folding evaluates bitwise forms. -/
theorem of_floats : BitEvaluation floats.value where
  number _ := rfl
  form {s c} hs t ts := by
    have hop : c.operator ≠ .sub := by cases c <;> exact fun h => by cases h
    rw [floats.value_form hs, floats.form_eq_accumulate (Or.inl hop), List.map_cons, accumulate,
      c.binary_operator]

end BitEvaluation

namespace Bitwise

/-- On the integers from `-2 ^ 53` to `2 ^ 53 - 1`, what folding combines is the same integer of
two's complement in every order and grouping, and again in that range.  So an expression of such
literals is folded to the literal that it stands for, and a form of any operands with such values
keeps its value when its literals are moved and combined. -/
theorem bitwise_folding_is_exact :
    (∀ (c : BitOperator) (f : Float → Float → Float), c.operator.accumulator? = some f →
      ∀ xs : List Float, (∀ x ∈ xs, IsWhole x) → ∀ r, Combines f xs r →
        IsWhole r ∧ integer r = c.total (xs.map integer) ∧ ∀ r', Combines f xs r' → r' = r) ∧
    (∀ e : Bitwise, ∃ x, Term.normalize e.term = .ok (.atom (.number x)) ∧ IsWhole x ∧
      integer x = e.meaning) ∧
    (∀ value : Term → Float, BitEvaluation value → ∀ (c : BitOperator) (s : Symbol),
      Operator.ofSymbol? s = some c.operator → ∀ operands : List Term, operands ≠ [] →
      (∀ t ∈ operands, IsWhole (value t)) →
        ∃ t, afterFolding (.atom (.symbol s) :: operands) = .ok t ∧
          value t = value (.list (.atom (.symbol s) :: operands)) ∧ IsWhole (value t) ∧
          integer (value t) = c.total (operands.map fun operand => integer (value operand))) := by
  refine ⟨?_, normalize_term, ?_⟩
  · intro c f hf xs hxs r hr
    cases c.accumulator?_operator.symm.trans hf
    have hcombined := BitOperator.combined_of_combines hr hxs
    refine ⟨hcombined.isWhole, BitOperator.eq_total_of_combines hcombined.combines, ?_⟩
    intro r' hr'
    exact (BitOperator.combined_of_combines hr' hxs).unique hcombined
  · intro value hvalue c s hs operands hne hoperands
    obtain ⟨t, ht, hsame, hcombined⟩ := hvalue.value_afterFolding hs hne hoperands
    refine ⟨t, ht, hsame, hcombined.isWhole, ?_⟩
    have htotal := BitOperator.eq_total_of_combines hcombined.combines
    rwa [List.map_map] at htotal

def extremes : List Float :=
  [-9007199254740992.0, -0.0, 9007199254740991.0]

/-- A symbol, which stands for 4, between literals at both ends of the range. -/
def extremeOperands : List Term :=
  [.atom (.number (-9007199254740992.0)), .symbol ⟨"x"⟩, .atom (.number 9007199254740991.0)]

theorem bitwise_folding_is_exact_extremes :
    ((∀ x ∈ extremes, IsWhole x) ∧ BitOperator.xor.total (extremes.map integer) = -1 ∧
      ∀ r, Combines BitOperator.xor.onFloats extremes r →
        IsWhole r ∧ integer r = BitOperator.xor.total (extremes.map integer) ∧
          ∀ r', Combines BitOperator.xor.onFloats extremes r' → r' = r) ∧
    BitEvaluation floats.value ∧
    Operator.ofSymbol? ⟨"bitwise-xor"⟩ = some BitOperator.xor.operator ∧
    extremeOperands ≠ [] ∧ (∀ t ∈ extremeOperands, IsWhole (floats.value t)) ∧
    floats.value (.list (.symbol ⟨"bitwise-xor"⟩ :: extremeOperands)) = -5.0 ∧
      ∃ t, afterFolding (.symbol ⟨"bitwise-xor"⟩ :: extremeOperands) = .ok t ∧
        floats.value t = floats.value (.list (.symbol ⟨"bitwise-xor"⟩ :: extremeOperands)) ∧
        IsWhole (floats.value t) ∧
        integer (floats.value t) = BitOperator.xor.total
          (extremeOperands.map fun operand => integer (floats.value operand)) := by
  have hextremes : ∀ x ∈ extremes, IsWhole x := by decide +kernel
  have hoperands : ∀ t ∈ extremeOperands, IsWhole (floats.value t) := by decide +kernel
  have hne : extremeOperands ≠ [] := List.cons_ne_nil _ _
  exact ⟨⟨hextremes, by decide +kernel,
      bitwise_folding_is_exact.1 .xor _ BitOperator.xor.accumulator?_operator _ hextremes⟩,
    BitEvaluation.of_floats, rfl, hne, hoperands, by decide +kernel,
    bitwise_folding_is_exact.2.2 _ BitEvaluation.of_floats .xor _ rfl _ hne hoperands⟩

end Bitwise
end RegisterLisp
