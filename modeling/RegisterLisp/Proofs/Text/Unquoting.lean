import RegisterLisp.Proofs.Reading.Printed

/-!
# Quoted strings read back

The reader of source text has no escape for code points, so not every quoted string is source text.
`unescape` is the reader for all that `quote` writes: it gives the string back, whatever is in it
(`unescape_escapes`).  What stands between the quotes has no blank but the space, so a quoted string
is always on one line (`isFlat_quote`).
-/

namespace RegisterLisp
namespace Text

variable {c : Char} {cs rest : List Char}

/-! ## Code points in base sixteen -/

def hexValue (c : Char) : Nat :=
  if c.isDigit then c.toNat - '0'.toNat else c.toNat - 'a'.toNat + 10

/-- The value of digits in base sixteen, behind digits with a value. -/
def hexFrom (value : Nat) (digits : List Char) : Nat :=
  digits.foldl (fun value c => 16 * value + hexValue c) value

def IsHexDigit (c : Char) : Prop :=
  ∃ d < 16, c = Nat.digitChar d

theorem hexValue_digitChar : ∀ d < 16, hexValue (Nat.digitChar d) = d := by
  decide

theorem isHexDigit_of_mem_toDigits {n : ℕ} (h : c ∈ Nat.toDigits 16 n) : IsHexDigit c := by
  induction n using Nat.strongRecOn with
  | ind n ih =>
      by_cases hn : n < 16
      · rw [Nat.toDigits_of_lt_base hn, List.mem_singleton] at h
        exact ⟨n, hn, h⟩
      · rw [Nat.toDigits_of_base_le (by norm_num) (by omega)] at h
        rcases List.mem_append.1 h with h | h
        · exact ih (n / 16) (by omega) h
        · exact ⟨n % 16, by omega, List.mem_singleton.1 h⟩

/-- The digits of a code point are read back. -/
theorem hexFrom_toDigits (n : ℕ) : hexFrom 0 (Nat.toDigits 16 n) = n := by
  induction n using Nat.strongRecOn with
  | ind n ih =>
      by_cases hn : n < 16
      · rw [Nat.toDigits_of_lt_base hn, hexFrom, List.foldl_cons, List.foldl_nil,
          hexValue_digitChar n hn]
        omega
      · -- The last digit is the remainder, and those before it are the digits of the quotient.
        have hlast := hexValue_digitChar (n % 16) (by omega)
        have hfirst : hexFrom 0 (Nat.toDigits 16 (n / 16)) = n / 16 := ih (n / 16) (by omega)
        rw [hexFrom] at hfirst
        rw [Nat.toDigits_of_base_le (by norm_num) (by omega), hexFrom, List.foldl_append, hfirst,
          List.foldl_cons, List.foldl_nil, hlast]
        omega

/-- No digit ends the number. -/
theorem IsHexDigit.ne {c' : Char} (h : IsHexDigit c)
    (hne : ∀ d < 16, Nat.digitChar d ≠ c') : c ≠ c' := by
  obtain ⟨d, hd, rfl⟩ := h
  exact hne d hd

/-! ## Escapes -/

inductive EscapeState
  /-- Between two characters. -/
  | outside
  /-- Behind a backslash. -/
  | letter
  /-- Before the brace that opens a code point. -/
  | brace
  /-- Behind digits of a code point, which have a value. -/
  | code (value : Nat)

/-- Reads what stands between quotes. -/
def unescape : EscapeState → List Char → Option (List Char)
  | .outside, [] => some []
  | _, [] => none
  | .outside, c :: cs =>
      if c = '\\' then unescape .letter cs else (unescape .outside cs).map (c :: ·)
  | .letter, c :: cs =>
      if c = 'u' then unescape .brace cs
      else (unescape? c).bind fun meaning => (unescape .outside cs).map (meaning :: ·)
  | .brace, c :: cs => if c = '\x7b' then unescape (.code 0) cs else none
  | .code value, c :: cs =>
      if c = '\x7d' then (unescape .outside cs).map (Char.ofNat value :: ·)
      else unescape (.code (16 * value + hexValue c)) cs

/-- A code point is read up to the brace behind it. -/
theorem unescape_code {digits : List Char} (hdigits : ∀ c ∈ digits, IsHexDigit c) (value : ℕ) :
    unescape (.code value) (digits ++ '\x7d' :: rest) =
      (unescape .outside rest).map (Char.ofNat (hexFrom value digits) :: ·) := by
  induction digits generalizing value with
  | nil => simp [unescape, hexFrom]
  | cons c digits ih =>
      have hc : c ≠ '\x7d' := (hdigits c List.mem_cons_self).ne (by decide)
      have hrest := ih (fun c' hc' => hdigits c' (List.mem_cons_of_mem _ hc'))
        (16 * value + hexValue c)
      rw [List.cons_append, unescape, if_neg hc, hrest]
      rfl

/-- How a character stands between quotes: as itself, behind a backslash, or by its code point. -/
inductive Escaped (c : Char) : List Char → Prop
  | plain (hprint : isPrintable c = true) (hquote : c ≠ '"') (hbackslash : c ≠ '\\') :
      Escaped c [c]
  | letter {l : Char} (h : unescape? l = some c) (hu : l ≠ 'u') : Escaped c ['\\', l]
  | code : Escaped c ('\\' :: 'u' :: '\x7b' :: (Nat.toDigits 16 c.toNat ++ ['\x7d']))

/-- Each character is written in one of the three ways. -/
theorem escaped_escapeChar (c : Char) : Escaped c (escapeChar c) := by
  cases hletter : escapeLetter? c with
  | some l =>
      obtain ⟨hmeaning, hu⟩ := unescape?_of_escapeLetter? hletter
      have hescape : escapeChar c = ['\\', l] := by simp [escapeChar, hletter]
      rw [hescape]
      exact .letter hmeaning hu
  | none =>
      obtain ⟨hquote, hbackslash⟩ := ne_of_escapeLetter? hletter
      by_cases hprint : isPrintable c = true
      · have hescape : escapeChar c = [c] := by simp [escapeChar, hletter, hprint]
        rw [hescape]
        exact .plain hprint hquote hbackslash
      · have hescape : escapeChar c
            = '\\' :: 'u' :: '\x7b' :: (Nat.toDigits 16 c.toNat ++ ['\x7d']) := by
          simp [escapeChar, hletter, hprint]
        rw [hescape]
        exact .code

/-- One character is read back, whatever follows it. -/
theorem Escaped.unescape_append (h : Escaped c cs) (rest : List Char) :
    unescape .outside (cs ++ rest) = (unescape .outside rest).map (c :: ·) := by
  cases h with
  | plain _ _ hbackslash => simp [unescape, hbackslash]
  | letter hmeaning hu => simp [unescape, hmeaning, hu]
  | code =>
      have hcode : unescape (.code 0) (Nat.toDigits 16 c.toNat ++ '\x7d' :: rest) =
          (unescape .outside rest).map (c :: ·) := by
        rw [unescape_code fun _ hc' => isHexDigit_of_mem_toDigits hc', hexFrom_toDigits,
          Char.ofNat_toNat]
      simpa [unescape] using hcode

/-- Every string is read back from between its quotes. -/
theorem unescape_escapes (chars : List Char) :
    unescape .outside (chars.flatMap escapeChar) = some chars := by
  induction chars with
  | nil => rfl
  | cons c chars ih =>
      rw [List.flatMap_cons, (escaped_escapeChar c).unescape_append, ih]
      rfl

/-! ## Blanks -/

/-- The only blank is the space. -/
def IsFlat (cs : List Char) : Prop :=
  ∀ c ∈ cs, isBlank c = true → c = ' '

/-- Texts without line ends can be put together. -/
theorem isFlat_append : IsFlat (cs ++ rest) ↔ IsFlat cs ∧ IsFlat rest :=
  List.forall_mem_append

theorem isFlat_of_all (h : (cs.all fun c => !isBlank c || c == ' ') = true) : IsFlat cs := by
  intro c hc hblank
  simpa [hblank] using List.all_eq_true.1 h c hc

/-- Characters none of which is blank are on one line. -/
theorem isFlat_of_not_isBlank (h : ∀ c ∈ cs, isBlank c = false) : IsFlat cs := by
  intro c hc hblank
  rw [h c hc] at hblank
  cases hblank

/-- Between words there are spaces. -/
theorem of_mem_intercalate {ws : List (List Char)} (h : c ∈ [' '].intercalate ws) :
    c = ' ' ∨ ∃ w ∈ ws, c ∈ w := by
  induction ws with
  | nil => cases h
  | cons w ws ih =>
      cases ws with
      | nil => exact .inr ⟨w, List.mem_cons_self, by simpa using h⟩
      | cons w' ws =>
          rw [List.intercalate_cons_cons, List.mem_append, List.mem_append, List.mem_singleton] at h
          rcases h with (h | h) | h
          · exact .inr ⟨w, List.mem_cons_self, h⟩
          · exact .inl h
          · refine (ih h).imp_right ?_
            rintro ⟨w'', hmem, hc⟩
            exact ⟨w'', List.mem_cons_of_mem _ hmem, hc⟩

/-- Texts on one line with a space between each two are on one line. -/
theorem isFlat_intercalate {ws : List (List Char)} (h : ∀ w ∈ ws, IsFlat w) :
    IsFlat ([' '].intercalate ws) := by
  intro c hc hblank
  rcases of_mem_intercalate hc with hspace | ⟨w, hw, hmem⟩
  · exact hspace
  · exact h w hw c hmem hblank

theorem not_isBlank_of_isDigit (h : c.isDigit = true) : isBlank c = false := by
  have hends := Token.endsWord_of_isDigit h
  simp only [Token.endsWord, Bool.or_eq_false_iff] at hends
  simp [hends]

theorem not_isBlank_of_isLower (h : c.isLower = true) : isBlank c = false := by
  have hrange : 97 ≤ c.toNat ∧ c.toNat ≤ 122 := by
    simpa [Char.isLower, UInt32.le_iff_toNat_le] using h
  simp only [isBlank, inRanges, blanks, List.any_cons, List.any_nil, Bool.or_false,
    Bool.or_eq_false_iff, Bool.and_eq_false_iff, decide_eq_false_iff_not]
  omega

theorem ne_of_isLower {c' : Char} (h : c.isLower = true) (h' : c'.isLower = false) : c ≠ c' := by
  rintro rfl
  rw [h] at h'
  cases h'

/-- The blanks that are printable are spaces. -/
theorem eq_space_of_isPrintable (hprint : isPrintable c = true) (hblank : isBlank c = true) :
    c = ' ' := by
  -- All other blanks are controls or listed as not printable.
  have htable : ∀ p ∈ blanks, ∀ n ∈ List.range' p.1 (p.2 + 1 - p.1),
      n = 0x20 ∨ n < 0x20 ∨ 0x7f ≤ n ∧ inRanges unprintables n = true := by
    decide +kernel
  rw [isBlank, inRanges, List.any_eq_true] at hblank
  obtain ⟨p, hp, hrange⟩ := hblank
  rw [Bool.and_eq_true, decide_eq_true_iff, decide_eq_true_iff] at hrange
  rw [isPrintable] at hprint
  rcases htable p hp c.toNat (by rw [List.mem_range'_1]; omega) with hspace | hcontrol | ⟨hlarge, h⟩
  · exact Char.toNat_inj.1 hspace
  · rw [if_pos (by omega), decide_eq_true_iff] at hprint
    omega
  · rw [if_neg (by omega), h] at hprint
    cases hprint

/-- No character between quotes ends the line. -/
theorem Escaped.isFlat (h : Escaped c cs) : IsFlat cs := by
  cases h with
  | plain hprint _ _ =>
      intro c' hc' hblank
      obtain rfl := List.mem_singleton.1 hc'
      exact eq_space_of_isPrintable hprint hblank
  | @letter l hmeaning _ =>
      have htable : ∀ p ∈ escapes, isBlank p.1 = false := by decide
      obtain ⟨⟨l', m⟩, hfind, -⟩ := Option.map_eq_some_iff.1 hmeaning
      obtain rfl : l' = l := by simpa using List.find?_some hfind
      have hl : isBlank l' = false := htable _ (List.mem_of_find?_eq_some hfind)
      refine isFlat_of_not_isBlank fun c' hc' => ?_
      rcases List.mem_cons.1 hc' with rfl | hc'
      · rfl
      · rwa [List.mem_singleton.1 hc']
  | code =>
      have htable : ∀ d < 16, isBlank (Nat.digitChar d) = false := by decide
      have hdigits : IsFlat (Nat.toDigits 16 c.toNat) := by
        refine isFlat_of_not_isBlank fun c' hc' => ?_
        obtain ⟨d, hd, rfl⟩ := isHexDigit_of_mem_toDigits hc'
        exact htable d hd
      have hstart : IsFlat ['\\', 'u', '\x7b'] := isFlat_of_all rfl
      have hend : IsFlat ['\x7d'] := isFlat_of_all rfl
      exact isFlat_append.2 ⟨hstart, isFlat_append.2 ⟨hdigits, hend⟩⟩

/-- A string in quotes stands on one line. -/
theorem isFlat_quote (text : String) : IsFlat (quote text).toList := by
  have hquote : IsFlat ['"'] := isFlat_of_all rfl
  have hinside : IsFlat (text.toList.flatMap escapeChar) := by
    intro c hc
    obtain ⟨c', -, hc'⟩ := List.mem_flatMap.1 hc
    exact (escaped_escapeChar c').isFlat c hc'
  rw [quote, String.toList_ofList]
  exact isFlat_append.2 ⟨isFlat_append.2 ⟨hquote, hinside⟩, hquote⟩

end Text
end RegisterLisp
