import RegisterLisp.Proofs.Number.Layout

/-!
# Reading operands back

The text of a number as an operand of an instruction, read as a number, is that number again.
Infinities and NaN are written by their names here, and there is a single NaN, so this holds of all
numbers (`ofChars?_immediate`).  What is new over the layout of expressions is the exponent of very
large and very small numbers, and the point that every integer has.
-/

namespace RegisterLisp

/-! ## Infinities and NaN -/

namespace Rounding

open Float.Model Float.Model.UnpackedFloat
open Number (isNegative)

variable {x : Float}

/-- What is not finite has an exponent of ones. -/
theorem unpackExponent_of_not_finite (h : x.isNaN = true ∨ x.isInf = true) :
    unpackExponent (bits x) = -1#11 := by
  have hnan : x.isNaN = (UnpackedFloat.unpack Format.binary64 (bits x)).isNaN := rfl
  have hinf : x.isInf = (UnpackedFloat.unpack Format.binary64 (bits x)).isInf := rfl
  rw [hnan, hinf, UnpackedFloat.unpack] at h
  by_contra hones
  simp only [if_neg hones] at h
  split at h
  · split at h <;> simp [UnpackedFloat.isNaN, UnpackedFloat.isInf] at h
  · simp [UnpackedFloat.isNaN, UnpackedFloat.isInf] at h

/-- There is one NaN. -/
theorem eq_of_isNaN (h : x.isNaN = true) : x = 0.0 / 0.0 := by
  have hones := unpackExponent_of_not_finite (.inl h)
  have hnan : (UnpackedFloat.unpack Format.binary64 (bits x)).isNaN = true := h
  have hmantissa : unpackMantissa (bits x) ≠ 0#52 := by
    intro hzero
    rw [UnpackedFloat.unpack] at hnan
    simp only [if_pos hones, if_pos hzero] at hnan
    cases hnan
  -- Of the patterns that stand for NaN only one is valid.
  have hbits : bits x = UnpackedFloat.packedNaN Format.binary64 :=
    x.toModel.valid.eq_packedNaN hones hmantissa
  refine ext_bits (hbits.trans ?_)
  decide +kernel

/-- There are two infinities, told apart by their sign. -/
theorem eq_of_isInf (h : x.isInf = true) : x = if isNegative x then -(1.0 / 0.0) else 1.0 / 0.0 := by
  have hones := unpackExponent_of_not_finite (.inr h)
  have hinf : (UnpackedFloat.unpack Format.binary64 (bits x)).isInf = true := h
  have hmantissa : unpackMantissa (bits x) = 0#52 := by
    by_contra hne
    rw [UnpackedFloat.unpack] at hinf
    simp only [if_pos hones, if_neg hne] at hinf
    cases hinf
  have hbits : bits x = packComponents Format.binary64 (sign x) (-1#11) 0#52 := by
    rw [sign_eq, ← hones, ← hmantissa]
    exact packComponents_unpack.symm
  refine ext_bits (hbits.trans ?_)
  rw [sign]
  split <;> decide +kernel

end Rounding

namespace Number

open Rounding

variable {ds es rest : List Char} {d : Decimal} {x : Float}

/-! ## Exponents -/

/-- The digits of a number are read as this number. -/
theorem allDigits?_toDigits (n : ℕ) : allDigits? (Nat.toDigits 10 n) = some n := by
  have hdigits : (Nat.toDigits 10 n).all Char.isDigit = true :=
    List.all_eq_true.2 fun c hc => Nat.isDigit_of_mem_toDigits (by norm_num) (by norm_num) hc
  have hvalue : digitsValue (Nat.toDigits 10 n) = n := by
    rw [digitsValue_eq, Nat.ofDigitChars_ten_toDigits]
  simp [allDigits?, hdigits, hvalue, Nat.toDigits_ne_nil]

/-- No sign stands before the digits of a natural number. -/
theorem exponent?_of_isDigit {c : Char} (hc : c.isDigit = true) :
    exponent? ('e' :: c :: rest) = (allDigits? (c :: rest)).map fun n => (n : ℤ) := by
  have hne : ∀ sign : Char, sign.isDigit = false → ∀ cs, c :: rest ≠ sign :: cs := by
    intro sign hsign cs heq
    rw [(List.cons.inj heq).1, hsign] at hc
    cases hc
  rw [exponent?, if_pos (.inl rfl)]
  · exact fun cs heq => hne '-' rfl cs heq
  · exact fun cs heq => hne '+' rfl cs heq

theorem toList_toString_ofNat (n : ℕ) : (toString (Int.ofNat n)).toList = Nat.toDigits 10 n :=
  Nat.toList_repr

theorem toList_toString_negSucc (n : ℕ) :
    (toString (Int.negSucc n)).toList = '-' :: Nat.toDigits 10 (n + 1) := by
  rw [Int.toString_eq_repr, Int.repr, String.toList_append, Nat.toList_repr]
  rfl

/-- An exponent is read back, with its sign. -/
theorem exponent?_toString (k : ℤ) : exponent? ('e' :: (toString k).toList) = some k := by
  cases k with
  | ofNat n =>
      rw [toList_toString_ofNat]
      cases hdigits : Nat.toDigits 10 n with
      | nil => exact absurd hdigits Nat.toDigits_ne_nil
      | cons c rest =>
          have hc : c.isDigit = true := by
            refine Nat.isDigit_of_mem_toDigits (b := 10) (n := n) (by norm_num) (by norm_num) ?_
            simp [hdigits]
          rw [exponent?_of_isDigit hc, ← hdigits, allDigits?_toDigits]
          rfl
  | negSucc n =>
      rw [toList_toString_negSucc, exponent?, if_pos (.inl rfl), allDigits?_toDigits]
      rfl

/-! ## Numerals with an exponent -/

/-- Digits and an exponent. -/
theorem numeral?_whole_exponent {k : ℤ} (hne : ds ≠ []) (hds : ∀ c ∈ ds, c.isDigit = true)
    (hk : exponent? ('e' :: rest) = some k) :
    numeral? (ds ++ 'e' :: rest) = some ⟨digitsValue ds, k⟩ := by
  have htake : (ds ++ 'e' :: rest).takeWhile Char.isDigit = ds := takeWhile_digits hds rfl rest
  have hdrop : (ds ++ 'e' :: rest).dropWhile Char.isDigit = 'e' :: rest :=
    dropWhile_digits hds rfl rest
  simp [numeral?, htake, hdrop, fraction, hk, hne]

/-- Digits with a point and an exponent: the digits behind the point lower the exponent. -/
theorem numeral?_decimals_exponent {k : ℤ} (hne : ds ≠ []) (hds : ∀ c ∈ ds, c.isDigit = true)
    (hes : ∀ c ∈ es, c.isDigit = true) (hk : exponent? ('e' :: rest) = some k) :
    numeral? (ds ++ '.' :: (es ++ 'e' :: rest)) = some ⟨digitsValue (ds ++ es), k - es.length⟩ := by
  have htake : (ds ++ '.' :: (es ++ 'e' :: rest)).takeWhile Char.isDigit = ds :=
    takeWhile_digits hds rfl _
  have hdrop : (ds ++ '.' :: (es ++ 'e' :: rest)).dropWhile Char.isDigit
      = '.' :: (es ++ 'e' :: rest) := dropWhile_digits hds rfl _
  have htake' : (es ++ 'e' :: rest).takeWhile Char.isDigit = es := takeWhile_digits hes rfl rest
  have hdrop' : (es ++ 'e' :: rest).dropWhile Char.isDigit = 'e' :: rest :=
    dropWhile_digits hes rfl rest
  simp [numeral?, htake, hdrop, fraction, htake', hdrop', hk, hne]

/-- The layout with an exponent keeps the digits, and the exponent less the decimals is the one of
the decimal. -/
theorem numeral?_scientific (d : Decimal) :
    numeral? d.scientific = some ⟨d.digits, d.exponent⟩ := by
  have hpoint : d.point = d.chars.length + d.exponent := rfl
  have hvalue := digitsValue_chars (d := d)
  have hdigits := isDigit_chars (d := d)
  have hexponent := exponent?_toString (d.point - 1)
  rw [Decimal.scientific]
  split
  · rename_i first second rest hchars
    rw [hchars] at hpoint hvalue hdigits
    -- All digits but the first are decimals.
    have hsplit : first :: '.' :: second :: rest ++ 'e' :: (toString (d.point - 1)).toList
        = [first] ++ '.' :: (second :: rest ++ 'e' :: (toString (d.point - 1)).toList) := rfl
    have hjoin : [first] ++ (second :: rest) = first :: second :: rest := rfl
    rw [hsplit, numeral?_decimals_exponent (by simp) ?_ ?_ hexponent, hjoin, hvalue]
    · congr 2
      simp only [List.length_cons] at hpoint ⊢
      omega
    · simpa using hdigits first (by simp)
    · exact fun c hc => hdigits c (List.mem_cons_of_mem _ hc)
  · -- A single digit has no point behind it.
    rename_i hshort
    have hlength : d.chars.length = 1 := by
      rcases hchars : d.chars with _ | ⟨first, _ | ⟨second, rest⟩⟩
      · exact absurd hchars chars_ne_nil
      · rfl
      · exact absurd hchars (hshort first second rest)
    rw [numeral?_whole_exponent chars_ne_nil hdigits hexponent, hvalue]
    congr 2
    omega

/-- Only an integer has something behind its digits. -/
theorem positional_of_neg (h : ¬ 0 ≤ d.exponent) (tail : List Char) :
    d.positional tail = d.positional [] := by
  rw [Decimal.positional, Decimal.positional, if_neg h, if_neg h]

/-- An integer is followed by a point and a zero, which do not change its value. -/
theorem numeral?_positional_point (d : Decimal) :
    ∃ a, numeral? (d.positional ['.', '0']) = some a ∧ a.value = d.value := by
  by_cases hexp : 0 ≤ d.exponent
  · have hdigits : ∀ c ∈ d.chars ++ zeros d.exponent.toNat, c.isDigit = true :=
      List.forall_mem_append.2 ⟨isDigit_chars, isDigit_zeros _⟩
    -- The zero behind the point is one more digit and one decimal.
    have hzero : d.chars ++ zeros d.exponent.toNat ++ ['0']
        = d.chars ++ zeros (d.exponent.toNat + 1) := by
      rw [zeros, zeros, List.replicate_succ', List.append_assoc]
    refine ⟨⟨d.digits * 10 ^ (d.exponent.toNat + 1), -1⟩, ?_, ?_⟩
    · rw [Decimal.positional, if_pos hexp, numeral?_decimals (by simp [chars_ne_nil]) hdigits
        (by simp), hzero, digitsValue_append_zeros]
      rfl
    · rw [Numeral.value, Decimal.value, ten_zpow_of_nonneg hexp, pow_succ]
      push_cast
      rw [zpow_neg_one]
      ring
  · rw [positional_of_neg hexp]
    exact numeral?_positional d

/-! ## Texts of operands -/

def isNumeric (c : Char) : Bool :=
  c.isDigit || ['.', '-', 'e', 'i', 'n', 'f', 'N', 'a'].contains c

/-- The text of a magnitude: it starts with a digit or is the name of an infinity. -/
structure MagnitudeText (cs : List Char) : Prop where
  head : ∃ c rest, cs = c :: rest ∧ (c.isDigit = true ∨ c = 'i')
  all : ∀ c ∈ cs, isNumeric c = true

/-- Digits and points are the text of a magnitude. -/
theorem DigitText.magnitudeText (h : DigitText ds) : MagnitudeText ds := by
  obtain ⟨c, rest, hds, hc⟩ := h.head
  refine ⟨⟨c, rest, hds, .inl hc⟩, fun c' hc' => ?_⟩
  rcases h.all c' hc' with hdigit | rfl
  · simp [isNumeric, hdigit]
  · decide

theorem isNumeric_toString {c : Char} {k : ℤ} (hc : c ∈ (toString k).toList) :
    isNumeric c = true := by
  have hdigit : ∀ {n : ℕ}, c ∈ Nat.toDigits 10 n → isNumeric c = true := by
    intro n hmem
    have := Nat.isDigit_of_mem_toDigits (by norm_num) (by norm_num) hmem
    simp [isNumeric, this]
  cases k with
  | ofNat n =>
      rw [toList_toString_ofNat] at hc
      exact hdigit hc
  | negSucc n =>
      rw [toList_toString_negSucc] at hc
      rcases List.mem_cons.1 hc with rfl | hc
      · decide
      · exact hdigit hc

/-- An exponent behind a magnitude is part of its text. -/
theorem MagnitudeText.append_exponent (h : MagnitudeText ds) (k : ℤ) :
    MagnitudeText (ds ++ 'e' :: (toString k).toList) := by
  obtain ⟨c, rest, rfl, hc⟩ := h.head
  refine ⟨⟨c, _, rfl, hc⟩, fun c' hc' => ?_⟩
  rcases List.mem_append.1 hc' with hc' | hc'
  · exact h.all c' hc'
  · rcases List.mem_cons.1 hc' with rfl | hc'
    · decide
    · exact isNumeric_toString hc'

theorem digitText_positional_point (d : Decimal) : DigitText (d.positional ['.', '0']) := by
  by_cases hexp : 0 ≤ d.exponent
  · rw [Decimal.positional, if_pos hexp]
    refine (digitText_of_digits (by simp [chars_ne_nil]) ?_).append_point (by simp)
    exact List.forall_mem_append.2 ⟨isDigit_chars, isDigit_zeros _⟩
  · rw [positional_of_neg hexp]
    exact digitText_positional d

/-- Before the exponent there are digits, with a point in between if there are several. -/
theorem exists_scientific (d : Decimal) :
    ∃ ds, DigitText ds ∧ d.scientific = ds ++ 'e' :: (toString (d.point - 1)).toList := by
  have hdigits := isDigit_chars (d := d)
  refine ⟨_, ?_, rfl⟩
  split
  · rename_i first second rest hchars
    rw [hchars] at hdigits
    have hfirst : DigitText [first] := by
      refine digitText_of_digits (by simp) ?_
      simpa using hdigits first (by simp)
    exact hfirst.append_point fun c hc => hdigits c (List.mem_cons_of_mem _ hc)
  · exact digitText_of_digits chars_ne_nil hdigits

theorem scientific_text (d : Decimal) :
    MagnitudeText d.scientific ∧ ∃ c rest, d.scientific = c :: rest ∧ c.isDigit = true := by
  obtain ⟨ds, hds, htext⟩ := exists_scientific d
  rw [htext]
  refine ⟨hds.magnitudeText.append_exponent _, ?_⟩
  obtain ⟨c, rest, rfl, hc⟩ := hds.head
  exact ⟨c, _, rfl, hc⟩

/-- A magnitude that rounds to the parts of a float is read as the float with these parts. -/
theorem unsigned?_eq_assemble {cs : List Char} {a : Numeral}
    (h : Representable (significand x) (scale x)) (hcs : ∃ c rest, cs = c :: rest ∧ c.isDigit = true)
    (ha : numeral? cs = some a) (hvalue : a.value = (shortest x).value) :
    unsigned? cs = some (assemble .positive h) := by
  obtain ⟨c, rest, rfl, hc⟩ := hcs
  have hr := roundsTo_shortest h
  rw [← hvalue] at hr
  rw [unsigned?_of_isDigit hc, ha, Option.map_some]
  exact congrArg some (toFloat_eq_assemble h hr)

/-- The text of a number other than NaN: the text of a magnitude, after a sign if the number has
one. -/
theorem exists_magnitude (hnan : x.isNaN = false) :
    ∃ cs y, MagnitudeText cs ∧ unsigned? cs = some y ∧
      (immediate x).toList = (if isNegative x then '-' :: cs else cs) ∧
      x = if isNegative x then -y else y := by
  rw [immediate, hnan, if_neg Bool.false_ne_true]
  by_cases hinf : x.isInf = true
  · refine ⟨['i', 'n', 'f'], 1.0 / 0.0, ⟨⟨'i', _, rfl, .inr rfl⟩,
      List.all_eq_true.1 rfl⟩, by decide +kernel, ?_, eq_of_isInf hinf⟩
    simp [hinf, signed]
  rw [Bool.not_eq_true] at hinf
  by_cases hzero : (x == 0.0) = true
  · have hwhole : DigitText ['0'] := digitText_of_digits (by simp) (by simp)
    have htext : DigitText ['0', '.', '0'] := hwhole.append_point (by simp)
    refine ⟨['0', '.', '0'], 0.0, htext.magnitudeText, by decide +kernel, ?_, eq_zero_of_beq hzero⟩
    simp [hinf, hzero, signed]
  rw [Bool.not_eq_true] at hzero
  -- The magnitude is that of the shortest decimal, in one layout or the other.
  have h := representable hnan hinf hzero
  have hx : x = if isNegative x then -assemble .positive h else assemble .positive h := by
    rw [neg_assemble]
    conv_lhs => rw [eq_assemble x h, sign]
    split <;> rfl
  rw [hinf, hzero, if_neg Bool.false_ne_true, if_neg Bool.false_ne_true]
  dsimp only
  split
  · have htext := digitText_positional_point (shortest x)
    obtain ⟨a, ha, hvalue⟩ := numeral?_positional_point (shortest x)
    exact ⟨_, _, htext.magnitudeText, unsigned?_eq_assemble h htext.head ha hvalue, by simp [signed],
      hx⟩
  · obtain ⟨htext, hhead⟩ := scientific_text (shortest x)
    have hread := unsigned?_eq_assemble h hhead (numeral?_scientific (shortest x)) rfl
    exact ⟨_, _, htext, hread, by simp [signed], hx⟩

/-- Every number is read back from its text. -/
theorem ofChars?_immediate (x : Float) : ofChars? (immediate x).toList = some x := by
  cases hnan : x.isNaN with
  | true =>
      rw [immediate, hnan, if_pos rfl, eq_of_isNaN hnan]
      decide +kernel
  | false =>
      obtain ⟨cs, y, hcs, hy, htext, hx⟩ := exists_magnitude hnan
      obtain ⟨c, rest, rfl, hc⟩ := hcs.head
      have hne : ∀ sign : Char, sign.isDigit = false → sign ≠ 'i' → c ≠ sign := by
        rintro sign hsign hi rfl
        rcases hc with hc | rfl
        · rw [hsign] at hc
          cases hc
        · exact hi rfl
      rw [htext]
      cases hneg : isNegative x with
      | true =>
          rw [hneg, if_pos rfl] at hx
          rw [if_pos rfl, ofChars?, hy, hx]
          rfl
      | false =>
          rw [hneg, if_neg (by decide)] at hx
          rw [if_neg (by decide), ofChars?_cons (hne '-' rfl (by decide)) (hne '+' rfl (by decide)),
            hy, hx]

/-- What the text of a number starts with, and what is in it. -/
theorem immediate_text (x : Float) :
    (∃ c rest, (immediate x).toList = c :: rest ∧ (c.isDigit = true ∨ c ∈ ['-', 'i', 'N'])) ∧
      ∀ c ∈ (immediate x).toList, isNumeric c = true := by
  cases hnan : x.isNaN with
  | true =>
      rw [immediate, hnan, if_pos rfl]
      exact ⟨⟨'N', _, rfl, .inr (by simp)⟩, List.all_eq_true.1 rfl⟩
  | false =>
      obtain ⟨cs, -, hcs, -, htext, -⟩ := exists_magnitude hnan
      obtain ⟨c, rest, rfl, hc⟩ := hcs.head
      rw [htext]
      cases isNegative x with
      | true =>
          refine ⟨⟨'-', _, rfl, .inr (by simp)⟩, fun c' hc' => ?_⟩
          rcases List.mem_cons.1 hc' with rfl | hc'
          · decide
          · exact hcs.all c' hc'
      | false =>
          refine ⟨⟨c, rest, rfl, hc.imp_right ?_⟩, hcs.all⟩
          rintro rfl
          simp

end Number
end RegisterLisp
