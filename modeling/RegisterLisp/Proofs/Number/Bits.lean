import RegisterLisp.Operator
import RegisterLisp.Proofs.Number.Whole

/-!
# Bitwise operators on integers

An integer has infinitely many bits in two's complement, and the bitwise operators work on each of
them.  A word holds the lowest bits of an integer and its sign, so operators on words are operators
on integers (`toInt_onBits`), whatever the width.  With the width 54 it follows that the integers
that floats hold exactly are closed under the operators, and with the width 64 that an operator on
floats computes what it computes on integers (`holds_onFloats`, `holds_complement`).
-/

namespace RegisterLisp

/-- The operators that combine two numbers bit by bit. -/
inductive BitOperator
  | and
  | or
  | xor
  deriving DecidableEq

namespace BitOperator

variable (c : BitOperator) {w : ℕ}

def onBit : BitOperator → Bool → Bool → Bool
  | .and => Bool.and
  | .or => Bool.or
  | .xor => Bool.xor

def onBits : BitOperator → BitVec w → BitVec w → BitVec w
  | .and => (· &&& ·)
  | .or => (· ||| ·)
  | .xor => (· ^^^ ·)

def onIntegers : BitOperator → ℤ → ℤ → ℤ
  | .and => Int.land
  | .or => Int.lor
  | .xor => Int.xor

/-- The integer that changes no other one. -/
def unit : BitOperator → ℤ
  | .and => -1
  | .or => 0
  | .xor => 0

def operator : BitOperator → Operator
  | .and => .bitAnd
  | .or => .bitOr
  | .xor => .bitXor

def onFloats (x y : Float) : Float :=
  Operator.onWords (fun v w => .ofBitVec (c.onBits v.toBitVec w.toBitVec)) x y

/-- The operators of this family are folded from the left. -/
theorem accumulator?_operator : c.operator.accumulator? = some c.onFloats := by
  cases c <;> rfl

/-! ## Bits -/

/-- Integers with the same bits are equal. -/
theorem eq_of_testBit_eq {m n : ℤ} (h : ∀ i, m.testBit i = n.testBit i) : m = n := by
  -- Far enough to the left all bits are that of the sign.
  have hsign : ∀ a b : ℕ, ¬ ∀ i, a.testBit i = !b.testBit i := by
    intro a b hbits
    have ha := Nat.testBit_lt_two_pow (Nat.lt_two_pow_self.trans_le
      (Nat.pow_le_pow_right two_pos (Nat.le_max_left a b)))
    have hb := Nat.testBit_lt_two_pow (Nat.lt_two_pow_self.trans_le
      (Nat.pow_le_pow_right two_pos (Nat.le_max_right a b)))
    simpa [ha, hb] using hbits (max a b)
  cases m with
  | ofNat a =>
      cases n with
      | ofNat b => exact congrArg Int.ofNat (Nat.eq_of_testBit_eq h)
      | negSucc b => exact absurd h (hsign a b)
  | negSucc a =>
      cases n with
      | ofNat b => exact absurd (fun i => (h i).symm) (hsign b a)
      | negSucc b =>
          refine congrArg Int.negSucc (Nat.eq_of_testBit_eq fun i => ?_)
          exact Bool.not_inj (h i)

/-- The bits of a word, continued by its sign. -/
theorem testBit_toInt (v : BitVec w) (i : ℕ) :
    v.toInt.testBit i = if i < w then v.getLsbD i else v.msb := by
  cases hmsb : v.msb with
  | false =>
      rw [BitVec.toInt_eq_toNat_of_msb hmsb]
      split
      · rfl
      · exact BitVec.getLsbD_of_ge v i (by omega)
  | true =>
      -- The bits of a negative integer are those of a natural number, turned over.
      have htoInt : v.toInt = Int.negSucc (~~~v).toNat := by
        have hlt := v.isLt
        rw [BitVec.toInt_eq_msb_cond, if_pos hmsb, BitVec.toNat_not, Int.negSucc_eq]
        omega
      rw [htoInt]
      change (!(~~~v).getLsbD i) = _
      rw [BitVec.getLsbD_not]
      split <;> simp_all

/-- Integers are combined bit by bit, with infinitely many sign bits. -/
theorem testBit_onIntegers (m n : ℤ) (i : ℕ) :
    (c.onIntegers m n).testBit i = c.onBit (m.testBit i) (n.testBit i) := by
  cases c with
  | and => exact Int.testBit_land m n i
  | or => exact Int.testBit_lor m n i
  | xor => exact Int.testBit_lxor m n i

/-- Words are combined bit by bit. -/
theorem getLsbD_onBits (u v : BitVec w) (i : ℕ) :
    (c.onBits u v).getLsbD i = c.onBit (u.getLsbD i) (v.getLsbD i) := by
  cases c with
  | and => exact BitVec.getLsbD_and
  | or => exact BitVec.getLsbD_or
  | xor => exact BitVec.getLsbD_xor

/-- The sign bits are combined like the others, so that the result has the sign of the integers
combined. -/
theorem msb_onBits (u v : BitVec w) : (c.onBits u v).msb = c.onBit u.msb v.msb := by
  cases c with
  | and => exact BitVec.msb_and
  | or => exact BitVec.msb_or
  | xor => exact BitVec.msb_xor

/-- Words are combined as the integers they are. -/
theorem toInt_onBits (u v : BitVec w) : (c.onBits u v).toInt = c.onIntegers u.toInt v.toInt := by
  refine eq_of_testBit_eq fun i => ?_
  rw [testBit_onIntegers, testBit_toInt, testBit_toInt, testBit_toInt, getLsbD_onBits, msb_onBits]
  split <;> rfl

/-- Turning over the bits of a word is turning over those of its integer. -/
theorem toInt_complement (hw : 0 < w) (v : BitVec w) : (~~~v).toInt = Int.lnot v.toInt := by
  refine eq_of_testBit_eq fun i => ?_
  rw [Int.testBit_lnot, testBit_toInt, testBit_toInt, BitVec.getLsbD_not, BitVec.msb_not]
  split <;> simp_all

/-! ## Laws -/

theorem onIntegers_comm (m n : ℤ) : c.onIntegers m n = c.onIntegers n m := by
  refine eq_of_testBit_eq fun i => ?_
  rw [testBit_onIntegers, testBit_onIntegers]
  cases c with
  | and => exact Bool.and_comm _ _
  | or => exact Bool.or_comm _ _
  | xor => exact Bool.xor_comm _ _

/-- The operands may be grouped in any way. -/
theorem onIntegers_assoc (m n k : ℤ) :
    c.onIntegers (c.onIntegers m n) k = c.onIntegers m (c.onIntegers n k) := by
  refine eq_of_testBit_eq fun i => ?_
  simp only [testBit_onIntegers]
  cases c with
  | and => exact Bool.and_assoc _ _ _
  | or => exact Bool.or_assoc _ _ _
  | xor => exact Bool.xor_assoc _ _ _

theorem onIntegers_unit (n : ℤ) : c.onIntegers c.unit n = n := by
  have hones : ∀ i, (-1 : ℤ).testBit i = true := by
    intro i
    change (!(0 : ℕ).testBit i) = true
    rw [Nat.zero_testBit]
    rfl
  have hzeros : ∀ i, (0 : ℤ).testBit i = false := Nat.zero_testBit
  refine eq_of_testBit_eq fun i => ?_
  rw [testBit_onIntegers]
  cases c with
  | and => exact (congrArg (· && _) (hones i)).trans (Bool.true_and _)
  | or => exact (congrArg (· || _) (hzeros i)).trans (Bool.false_or _)
  | xor => exact (congrArg (Bool.xor · _) (hzeros i)).trans (Bool.false_xor _)

instance : Std.Commutative c.onIntegers := ⟨c.onIntegers_comm⟩

instance : Std.Associative c.onIntegers := ⟨c.onIntegers_assoc⟩

end BitOperator

/-! ## Floats -/

namespace Number

variable {x y : Float}

/-- The number with all bits of its integer part turned over. -/
def complement (x : Float) : Float :=
  ofWord (~~~ toWord x)

/-- The integers that floats hold exactly are the words of 54 bits. -/
theorem IsWhole.exists_bits (h : IsWhole x) : ∃ v : BitVec 54, v.toInt = integer x := by
  refine ⟨BitVec.ofInt 54 (integer x), ?_⟩
  have hlower := h.lower
  have hupper := h.upper
  rw [BitVec.toInt_ofInt]
  exact Int.bmod_eq_of_le (by omega) (by omega)

/-- A float that is the integer `n`, and not the negative zero. -/
structure Holds (x : Float) (n : ℤ) : Prop where
  isWhole : IsWhole x
  integer_eq : integer x = n
  canonical : ofWord (toWord x) = x

/-- An integer is held by one float only. -/
theorem Holds.unique {n : ℤ} (hx : Holds x n) (hy : Holds y n) : x = y := by
  have hwords : toWord x = toWord y := by
    refine Int64.toInt_inj.1 ?_
    rw [hx.isWhole.toInt_toWord, hy.isWhole.toInt_toWord, hx.integer_eq, hy.integer_eq]
  calc x = ofWord (toWord x) := hx.canonical.symm
    _ = ofWord (toWord y) := by rw [hwords]
    _ = y := hy.canonical

theorem holds_ofWord {v : Int64} (u : BitVec 54) (h : v.toInt = u.toInt) :
    Holds (ofWord v) u.toInt := by
  have hlower := u.le_two_mul_toInt
  have hupper := u.two_mul_toInt_lt
  rw [← h] at hlower hupper ⊢
  obtain ⟨hwhole, hinteger⟩ := isWhole_ofWord (w := v) (by omega) (by omega)
  have hword : toWord (ofWord v) = v := Int64.toInt_inj.1 (hwhole.toInt_toWord.trans hinteger)
  exact ⟨hwhole, hinteger, congrArg ofWord hword⟩

/-- Nothing is rounded or clamped. -/
theorem holds_onFloats (c : BitOperator) (hx : IsWhole x) (hy : IsWhole y) :
    Holds (c.onFloats x y) (c.onIntegers (integer x) (integer y)) := by
  obtain ⟨u, hu⟩ := hx.exists_bits
  obtain ⟨v, hv⟩ := hy.exists_bits
  -- The operator on 54 bits shows that the result is in range, the one on 64 bits what it is.
  have hbits : (c.onBits u v).toInt = c.onIntegers (integer x) (integer y) := by
    rw [c.toInt_onBits, hu, hv]
  rw [← hbits]
  refine holds_ofWord _ ?_
  calc (c.onBits (toWord x).toBitVec (toWord y).toBitVec).toInt
      = c.onIntegers (toWord x).toInt (toWord y).toInt := c.toInt_onBits _ _
    _ = (c.onBits u v).toInt := by rw [hx.toInt_toWord, hy.toInt_toWord, hbits]

theorem holds_complement (hx : IsWhole x) : Holds (complement x) (Int.lnot (integer x)) := by
  obtain ⟨u, hu⟩ := hx.exists_bits
  have hbits : (~~~u).toInt = Int.lnot (integer x) := by
    rw [BitOperator.toInt_complement (by decide), hu]
  rw [← hbits]
  refine holds_ofWord _ ?_
  calc (~~~(toWord x).toBitVec).toInt
      = Int.lnot (toWord x).toInt := BitOperator.toInt_complement (by decide) _
    _ = (~~~u).toInt := by rw [hx.toInt_toWord, hbits]

end Number
end RegisterLisp
