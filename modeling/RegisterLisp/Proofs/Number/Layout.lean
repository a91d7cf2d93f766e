import RegisterLisp.Number.Format
import RegisterLisp.Proofs.Number.Scientific
import RegisterLisp.Proofs.Number.ShortestDecimal

/-!
# Reading numbers back

The text of a finite number, read as a number, is that number again, with the sign of a zero
(`ofChars?_plain`).  The positional layout of a decimal is read as a numeral of the same value; for
the shortest decimal of a float, this value is rounded to the float.
-/

namespace RegisterLisp
namespace Number

open Rounding

variable {ds es : List Char} {d : Decimal}

/-! ## Numerals -/

def Numeral.value (a : Numeral) : ℚ :=
  a.coefficient * 10 ^ a.exponent

theorem digitsValue_eq (ds : List Char) : digitsValue ds = Nat.ofDigitChars 10 ds 0 :=
  Nat.ofDigitChars_eq_foldl.symm

/-- Digits alone are the number that they denote. -/
theorem numeral?_whole (hne : ds ≠ []) (hds : ∀ c ∈ ds, c.isDigit = true) :
    numeral? ds = some ⟨digitsValue ds, 0⟩ := by
  have htake : ds.takeWhile Char.isDigit = ds := List.takeWhile_eq_self_iff.2 hds
  have hdrop : ds.dropWhile Char.isDigit = [] := List.dropWhile_eq_nil_iff.2 hds
  simp [numeral?, htake, hdrop, fraction, exponent?, hne]

/-- Digits end where another character stands. -/
theorem takeWhile_digits {c : Char} (hds : ∀ c ∈ ds, c.isDigit = true) (hc : c.isDigit = false)
    (rest : List Char) : (ds ++ c :: rest).takeWhile Char.isDigit = ds := by
  rw [List.takeWhile_append_of_pos hds]
  simp [hc]

theorem dropWhile_digits {c : Char} (hds : ∀ c ∈ ds, c.isDigit = true) (hc : c.isDigit = false)
    (rest : List Char) : (ds ++ c :: rest).dropWhile Char.isDigit = c :: rest := by
  rw [List.dropWhile_append_of_pos hds]
  simp [hc]

/-- The digits behind a point lower the exponent by one each. -/
theorem numeral?_decimals (hne : ds ≠ []) (hds : ∀ c ∈ ds, c.isDigit = true)
    (hes : ∀ c ∈ es, c.isDigit = true) :
    numeral? (ds ++ '.' :: es) = some ⟨digitsValue (ds ++ es), -es.length⟩ := by
  have htake : (ds ++ '.' :: es).takeWhile Char.isDigit = ds := takeWhile_digits hds rfl es
  have hdrop : (ds ++ '.' :: es).dropWhile Char.isDigit = '.' :: es := dropWhile_digits hds rfl es
  have htake' : es.takeWhile Char.isDigit = es := List.takeWhile_eq_self_iff.2 hes
  have hdrop' : es.dropWhile Char.isDigit = [] := List.dropWhile_eq_nil_iff.2 hes
  simp [numeral?, htake, hdrop, fraction, htake', hdrop', exponent?, hne]

/-! ## The positional layout -/

theorem isDigit_chars : ∀ c ∈ d.chars, c.isDigit = true := by
  intro c hc
  exact Nat.isDigit_of_mem_toDigits (by norm_num) (by norm_num) hc

theorem isDigit_zeros (n : ℕ) : ∀ c ∈ zeros n, c.isDigit = true := by
  intro c hc
  rw [List.eq_of_mem_replicate hc]
  rfl

/-- A decimal has at least one digit. -/
theorem chars_ne_nil : d.chars ≠ [] :=
  Nat.toDigits_ne_nil

/-- Digits stand before the point. -/
theorem take_chars_ne_nil (h : 0 < d.point) : d.chars.take d.point.toNat ≠ [] := by
  rw [Ne, List.take_eq_nil_iff, not_or]
  exact ⟨by omega, chars_ne_nil⟩

/-- The digits that are written denote the digits of the decimal. -/
theorem digitsValue_chars : digitsValue d.chars = d.digits := by
  rw [digitsValue_eq, Decimal.chars, Nat.ofDigitChars_ten_toDigits]

/-- Zeros before the digits do not count. -/
theorem digitsValue_zeros_append (n : ℕ) : digitsValue (zeros n ++ d.chars) = d.digits := by
  rw [digitsValue_eq, Nat.ofDigitChars_append, zeros, Nat.ofDigitChars_replicate_zero, mul_zero,
    ← digitsValue_eq, digitsValue_chars]

/-- Zeros behind the digits multiply by powers of ten. -/
theorem digitsValue_append_zeros (n : ℕ) :
    digitsValue (d.chars ++ zeros n) = d.digits * 10 ^ n := by
  rw [digitsValue_eq, Nat.ofDigitChars_append, zeros, Nat.ofDigitChars_replicate_zero,
    ← digitsValue_eq, digitsValue_chars, mul_comm]

/-- The layout of a decimal is a numeral of the same value. -/
theorem numeral?_positional (d : Decimal) :
    ∃ a, numeral? (d.positional []) = some a ∧ a.value = d.value := by
  have hpoint : d.point = d.chars.length + d.exponent := rfl
  rw [Decimal.positional]
  split
  · -- An integer: zeros follow the digits.
    rename_i hexp
    refine ⟨⟨d.digits * 10 ^ d.exponent.toNat, 0⟩, ?_, ?_⟩
    · rw [List.append_nil, numeral?_whole (by simp [chars_ne_nil]), digitsValue_append_zeros]
      exact List.forall_mem_append.2 ⟨isDigit_chars, isDigit_zeros _⟩
    · rw [Numeral.value, Decimal.value, zpow_zero, mul_one, Nat.cast_mul,
        ← ten_zpow_of_nonneg hexp]
  · rename_i hexp
    refine ⟨⟨d.digits, d.exponent⟩, ?_, rfl⟩
    split
    · -- The point stands between the digits.
      rename_i hinside
      rw [numeral?_decimals, List.take_append_drop, digitsValue_chars, List.length_drop]
      · congr 2
        omega
      · exact take_chars_ne_nil hinside
      · exact fun c hc => isDigit_chars c (List.mem_of_mem_take hc)
      · exact fun c hc => isDigit_chars c (List.mem_of_mem_drop hc)
    · -- Zeros stand between the point and the digits.
      rename_i hinside
      have hsplit : '0' :: '.' :: zeros (-d.point).toNat ++ d.chars
          = ['0'] ++ '.' :: (zeros (-d.point).toNat ++ d.chars) := rfl
      have hzeros : ['0'] ++ (zeros (-d.point).toNat ++ d.chars)
          = zeros ((-d.point).toNat + 1) ++ d.chars := rfl
      rw [hsplit, numeral?_decimals, hzeros, digitsValue_zeros_append, List.length_append, zeros,
        List.length_replicate]
      · congr 2
        omega
      · simp
      · simp
      · exact List.forall_mem_append.2 ⟨isDigit_zeros _, isDigit_chars⟩

/-! ## Texts of numbers -/

/-- Digits and points, with a digit first. -/
structure DigitText (cs : List Char) : Prop where
  head : ∃ c rest, cs = c :: rest ∧ c.isDigit = true
  all : ∀ c ∈ cs, c.isDigit = true ∨ c = '.'

/-- Digits are the text of a number. -/
theorem digitText_of_digits (hne : ds ≠ []) (hds : ∀ c ∈ ds, c.isDigit = true) : DigitText ds := by
  cases ds with
  | nil => exact absurd rfl hne
  | cons c rest => exact ⟨⟨c, rest, rfl, hds c List.mem_cons_self⟩, fun c hc => Or.inl (hds c hc)⟩

/-- A point and more digits behind it are, too. -/
theorem DigitText.append_point (h : DigitText ds) (hes : ∀ c ∈ es, c.isDigit = true) :
    DigitText (ds ++ '.' :: es) := by
  rcases h.head with ⟨c, rest, rfl, hc⟩
  refine ⟨⟨c, rest ++ '.' :: es, rfl, hc⟩, ?_⟩
  intro c' hc'
  rcases List.mem_append.1 hc' with hc' | hc'
  · exact h.all c' hc'
  · rcases List.mem_cons.1 hc' with rfl | hc'
    · exact Or.inr rfl
    · exact Or.inl (hes c' hc')

/-- So is every decimal in positional layout. -/
theorem digitText_positional (d : Decimal) : DigitText (d.positional []) := by
  rw [Decimal.positional]
  split
  · rw [List.append_nil]
    refine digitText_of_digits (by simp [chars_ne_nil]) ?_
    exact List.forall_mem_append.2 ⟨isDigit_chars, isDigit_zeros _⟩
  · split
    · rename_i hinside
      refine (digitText_of_digits (take_chars_ne_nil hinside) ?_).append_point ?_
      · exact fun c hc => isDigit_chars c (List.mem_of_mem_take hc)
      · exact fun c hc => isDigit_chars c (List.mem_of_mem_drop hc)
    · have hzero : DigitText ['0'] := digitText_of_digits (by simp) (by simp)
      exact hzero.append_point (List.forall_mem_append.2 ⟨isDigit_zeros _, isDigit_chars⟩)

/-- Names of infinities and NaNs start with one of two letters. -/
theorem unsigned?_cons {c : Char} (hi : c.toLower ≠ 'i') (hn : c.toLower ≠ 'n') (rest : List Char) :
    unsigned? (c :: rest) = (numeral? (c :: rest)).map Numeral.toFloat := by
  have hname : ∀ (l : Char) (ls : List Char), c.toLower ≠ l →
      String.ofList ((c :: rest).map Char.toLower) ≠ String.ofList (l :: ls) := by
    intro l ls hl heq
    exact hl (List.cons.inj (String.ofList_injective heq)).1
  rw [unsigned?, if_neg, if_neg]
  · exact hname 'n' ['a', 'n'] hn
  · rintro (heq | heq)
    · exact hname 'i' ['n', 'f'] hi heq
    · exact hname 'i' ['n', 'f', 'i', 'n', 'i', 't', 'y'] hi heq

theorem toLower_of_isDigit {c : Char} (hc : c.isDigit = true) : c.toLower = c := by
  rw [Char.toLower]
  split
  · rename_i hupper
    simp only [Char.isDigit, Bool.and_eq_true, decide_eq_true_iff] at hc
    exact absurd (UInt32.le_trans hupper.1 hc.2) (by decide)
  · rfl

theorem unsigned?_of_isDigit {c : Char} (hc : c.isDigit = true) (rest : List Char) :
    unsigned? (c :: rest) = (numeral? (c :: rest)).map Numeral.toFloat := by
  refine unsigned?_cons ?_ ?_ rest <;> rw [toLower_of_isDigit hc] <;> rintro rfl <;>
    exact absurd hc (by decide)

/-- A text with a digit in front is not taken for the name of an infinity. -/
theorem unsigned?_eq {cs : List Char} (h : DigitText cs) :
    unsigned? cs = (numeral? cs).map Numeral.toFloat := by
  rcases h.head with ⟨c, rest, rfl, hc⟩
  exact unsigned?_of_isDigit hc rest

/-- The positional text of the shortest decimal is read as the magnitude it was made from. -/
theorem unsigned?_positional_shortest {x : Float} (h : Representable (significand x) (scale x)) :
    unsigned? ((shortest x).positional []) = some (assemble .positive h) := by
  rcases numeral?_positional (shortest x) with ⟨a, ha, hvalue⟩
  have hr := roundsTo_shortest h
  rw [← hvalue] at hr
  rw [unsigned?_eq (digitText_positional _), ha, Option.map_some]
  exact congrArg some (toFloat_eq_assemble h hr)

/-- The text of a finite number: the text of a magnitude, after a sign if the number has one. -/
theorem exists_text {x : Float} (hnan : x.isNaN = false) (hinf : x.isInf = false) :
    ∃ cs y, DigitText cs ∧ unsigned? cs = some y ∧
      (plain x).toList = (if isNegative x then '-' :: cs else cs) ∧
      x = if isNegative x then -y else y := by
  rw [plain, hnan, hinf]
  by_cases hzero : (x == 0.0) = true
  · -- Both zeros are written with the same digit, so only the sign tells them apart.
    refine ⟨['0'], 0.0, digitText_of_digits (by simp) (by simp), by decide +kernel, ?_, ?_⟩
    · simp [hzero, signed]
    · exact eq_zero_of_beq hzero
  · rw [Bool.not_eq_true] at hzero
    have h := representable hnan hinf hzero
    refine ⟨_, _, digitText_positional (shortest x), unsigned?_positional_shortest h, ?_, ?_⟩
    · simp [hzero, signed]
    · rw [neg_assemble]
      conv_lhs => rw [eq_assemble x h, sign]
      split <;> rfl

/-- Without a sign in front the text is read as it stands. -/
theorem ofChars?_cons {c : Char} (hminus : c ≠ '-') (hplus : c ≠ '+') (rest : List Char) :
    ofChars? (c :: rest) = unsigned? (c :: rest) := by
  unfold ofChars?
  split
  · rename_i heq
    exact absurd (List.cons.inj heq).1 hminus
  · rename_i heq
    exact absurd (List.cons.inj heq).1 hplus
  · rfl

theorem ofChars?_of_isDigit {c : Char} (hc : c.isDigit = true) (rest : List Char) :
    ofChars? (c :: rest) = unsigned? (c :: rest) := by
  refine ofChars?_cons ?_ ?_ rest <;> rintro rfl <;> exact absurd hc (by decide)

/-- A finite number is read back from its text. -/
theorem ofChars?_plain {x : Float} (hnan : x.isNaN = false) (hinf : x.isInf = false) :
    ofChars? (plain x).toList = some x := by
  rcases exists_text hnan hinf with ⟨cs, y, hcs, hy, htext, hx⟩
  rcases hcs.head with ⟨c, rest, rfl, hc⟩
  rw [htext]
  cases hneg : isNegative x with
  | true =>
      rw [hneg, if_pos rfl] at hx
      rw [if_pos rfl, ofChars?, hy, hx]
      rfl
  | false =>
      rw [hneg, if_neg (by decide)] at hx
      rw [if_neg (by decide), ofChars?_of_isDigit hc, hy, hx]

end Number
end RegisterLisp
