import RegisterLisp.Proofs.Reading.Readable

/-!
# Scanning printed text

What the scanner makes of the text of a term.  The text of an atom is one word or one string; it is
scanned as `Atom.reread` says, whatever follows, as long as that does not go on with the word.  A
string is read back unless it holds a character that is written by its code point.  From this
follows what the text of a whole term is scanned as (`scan_render`).
-/

namespace RegisterLisp

/-! ## Escapes -/

namespace Text

/-- Whether a character is written by its code point: a backslash, the letter `u` and the digits of
the code point in braces. -/
def isSpelledOut (c : Char) : Bool :=
  (escapeChar c).take 2 == ['\\', 'u']

/-- The table of escapes is read in both directions. -/
theorem unescape?_of_escapeLetter? {c letter : Char} (h : escapeLetter? c = some letter) :
    unescape? letter = some c ∧ letter ≠ 'u' := by
  have htable : ∀ p ∈ escapes, unescape? p.1 = some p.2 ∧ p.1 ≠ 'u' := by decide
  rcases Option.map_eq_some_iff.1 h with ⟨⟨l, meaning⟩, hfind, rfl⟩
  have hmem := htable _ (List.mem_of_find?_eq_some hfind)
  have hmeaning : meaning = c := by simpa using List.find?_some hfind
  rw [← hmeaning]
  exact hmem

/-- A character without an escape does not end a string. -/
theorem ne_of_escapeLetter? {c : Char} (h : escapeLetter? c = none) : c ≠ '"' ∧ c ≠ '\\' := by
  refine ⟨?_, ?_⟩ <;> rintro rfl <;> exact absurd h (by decide)

/-- How a character may stand in a string. -/
theorem escapeChar_cases (c : Char) :
    isSpelledOut c = true ∧ (∃ rest, escapeChar c = '\\' :: 'u' :: rest) ∨
      isSpelledOut c = false ∧
        ((∃ letter, escapeChar c = ['\\', letter] ∧ unescape? letter = some c) ∨
          escapeChar c = [c] ∧ c ≠ '"' ∧ c ≠ '\\') := by
  cases hletter : escapeLetter? c with
  | some letter =>
      rcases unescape?_of_escapeLetter? hletter with ⟨hmeaning, hu⟩
      have hescape : escapeChar c = ['\\', letter] := by simp [escapeChar, hletter]
      refine Or.inr ⟨?_, Or.inl ⟨letter, hescape, hmeaning⟩⟩
      simp [isSpelledOut, hescape, hu]
  | none =>
      rcases ne_of_escapeLetter? hletter with ⟨hquote, hbackslash⟩
      by_cases hprint : isPrintable c = true
      · have hescape : escapeChar c = [c] := by simp [escapeChar, hletter, hprint]
        refine Or.inr ⟨?_, Or.inr ⟨hescape, hquote, hbackslash⟩⟩
        simp [isSpelledOut, hescape]
      · have hescape : escapeChar c
            = '\\' :: 'u' :: '\x7b' :: (Nat.toDigits 16 c.toNat ++ ['\x7d']) := by
          simp [escapeChar, hletter, hprint]
        refine Or.inl ⟨?_, _, hescape⟩
        simp [isSpelledOut, hescape]

end Text

/-! ## The scanner -/

namespace Token

variable {w rest : List Char} {c : Char}

theorem scan_cons (mode : Mode) (c : Char) (cs : List Char) :
    scan mode (c :: cs) = (step mode c).1 ++ scan (step mode c).2 cs :=
  rfl

def Delimited (rest : List Char) : Prop :=
  ∀ c ∈ rest.head?, endsWord c = true

theorem delimited_cons (h : endsWord c = true) (cs : List Char) : Delimited (c :: cs) := by
  simpa [Delimited] using h

theorem start_of_not_endsWord (h : endsWord c = false) : start c = ([], .word [c]) := by
  simp only [endsWord, Bool.or_eq_false_iff, beq_eq_false_iff_ne] at h
  simp [start, h]

/-- A word ends where something stands that is not part of it. -/
theorem scan_word_end (seen : List Char) (h : Delimited rest) :
    scan (.word seen) rest = .atom (ofWord seen.reverse) :: scan .between rest := by
  cases rest with
  | nil => rfl
  | cons c cs =>
      have hc : endsWord c = true := h c rfl
      simp [scan_cons, step, hc]

/-- Up to there its characters are gathered. -/
theorem scan_word_go (seen rest : List Char) (hw : ∀ c ∈ w, endsWord c = false) :
    scan (.word seen) (w ++ rest) = scan (.word (w.reverse ++ seen)) rest := by
  induction w generalizing seen with
  | nil => rfl
  | cons c w ih =>
      have hc : endsWord c = false := hw c List.mem_cons_self
      have hrest := ih (c :: seen) fun c' hc' => hw c' (List.mem_cons_of_mem _ hc')
      simpa [scan_cons, step, hc] using hrest

/-- A word is scanned as the atom that it denotes. -/
theorem scan_word (hw : IsWord w) (h : Delimited rest) :
    scan .between (w ++ rest) = .atom (ofWord w) :: scan .between rest := by
  rcases hw with ⟨hne, hends⟩
  cases w with
  | nil => exact absurd rfl hne
  | cons c w =>
      have hc : start c = ([], .word [c]) := start_of_not_endsWord (hends c List.mem_cons_self)
      have hgo := scan_word_go [c] rest fun c' hc' => hends c' (List.mem_cons_of_mem _ hc')
      rw [List.cons_append, scan_cons, step, hc, List.nil_append, hgo, scan_word_end _ h]
      simp

theorem scan_stuck (cs : List Char) : scan .stuck cs = [] := by
  induction cs with
  | nil => rfl
  | cons c cs ih => exact ih

/-- The characters of a string are read back up to the first that is spelled out. -/
theorem scan_string_go (seen chars rest : List Char) :
    scan (.string seen) (chars.flatMap Text.escapeChar ++ '"' :: rest) =
      if chars.any Text.isSpelledOut then [.fault .badEscape]
      else .atom (.string (String.ofList (seen.reverse ++ chars))) :: scan .between rest := by
  induction chars generalizing seen with
  | nil => simp [scan_cons, step]
  | cons c chars ih =>
      rcases Text.escapeChar_cases c with ⟨hspelled, tail, hescape⟩ | ⟨hspelled, hplain⟩
      · -- The reader has no meaning for the letter of a code point, and stops there.
        have hu : Text.unescape? 'u' = none := by decide
        simp [hescape, hspelled, scan_cons, step, hu, scan_stuck]
      · -- One step of the scanner takes a plain character, and two take an escape.
        have hrest := ih (c :: seen)
        rcases hplain with ⟨letter, hescape, hmeaning⟩ | ⟨hescape, hquote, hbackslash⟩
        · simpa [hescape, hspelled, scan_cons, step, hmeaning] using hrest
        · simpa [hescape, hspelled, scan_cons, step, hquote, hbackslash] using hrest

/-- A string is read back, unless a character in it is written by its code point. -/
theorem scan_string (s : String) (rest : List Char) :
    scan .between ((Text.quote s).toList ++ rest) =
      if s.toList.any Text.isSpelledOut then [.fault .badEscape]
      else .atom (.string s) :: scan .between rest := by
  have hstart : start '"' = ([], .string []) := rfl
  have htext : (Text.quote s).toList ++ rest
      = '"' :: (s.toList.flatMap Text.escapeChar ++ '"' :: rest) := by
    simp [Text.quote]
  rw [htext, scan_cons, step, hstart, List.nil_append, scan_string_go, List.reverse_nil,
    List.nil_append, String.ofList_toList]

/-! ## Words for atoms -/

theorem endsWord_of_isDigit (h : c.isDigit = true) : endsWord c = false := by
  have hrange : 48 ≤ c.toNat ∧ c.toNat ≤ 57 := by
    simpa [Char.isDigit, UInt32.le_iff_toNat_le] using h
  have hblank : Text.isBlank c = false := by
    simp only [Text.isBlank, Text.inRanges, Text.blanks, List.any_cons, List.any_nil, Bool.or_false,
      Bool.or_eq_false_iff, Bool.and_eq_false_iff, decide_eq_false_iff_not]
    omega
  have hne : ∀ d : Char, d.isDigit = false → (c == d) = false := by
    intro d hd
    rw [beq_eq_false_iff_ne]
    rintro rfl
    rw [h] at hd
    cases hd
  rw [endsWord, hblank, hne '(' rfl, hne ')' rfl, hne '\'' rfl, hne '"' rfl, hne ';' rfl]
  rfl

/-- The text of a number is one word. -/
theorem isWord_digitText {cs : List Char} (h : Number.DigitText cs) : IsWord cs := by
  refine ⟨?_, ?_⟩
  · rcases h.head with ⟨c, rest, rfl, -⟩
    simp
  · intro c hc
    rcases h.all c hc with hdigit | rfl
    · exact endsWord_of_isDigit hdigit
    · decide

theorem looksNumeric_of_isDigit (hc : c.isDigit = true) (rest : List Char) :
    looksNumeric (c :: rest) = true := by
  cases rest with
  | nil => exact hc
  | cons d rest => simp [looksNumeric, hc]

/-- Neither boolean looks like a number. -/
theorem ofWord_number {x : Float} (hw : looksNumeric w = true) (hx : Number.ofChars? w = some x) :
    ofWord w = .number x := by
  have hne : ∀ name : List Char, looksNumeric name = false →
      String.ofList w ≠ String.ofList name := by
    intro name hname heq
    rw [String.ofList_injective heq, hname] at hw
    cases hw
  rw [ofWord, if_neg (hne ['t', 'r', 'u', 'e'] rfl), if_neg (hne ['f', 'a', 'l', 's', 'e'] rfl),
    if_pos hw, hx]

/-- The text of a finite number is a word for that number. -/
theorem ofWord_plain {x : Float} (hnan : x.isNaN = false) (hinf : x.isInf = false) :
    IsWord (Number.plain x).toList ∧ ofWord (Number.plain x).toList = .number x := by
  have hread := Number.ofChars?_plain hnan hinf
  rcases Number.exists_text hnan hinf with ⟨cs, y, hcs, -, htext, -⟩
  have hword := isWord_digitText hcs
  rcases hcs.head with ⟨c, rest, rfl, hc⟩
  rw [htext] at hread ⊢
  cases hneg : Number.isNegative x with
  | true =>
      -- The sign is followed by a digit, so the word is tried as a number.
      rw [hneg, if_pos rfl] at hread
      rw [if_pos rfl]
      refine ⟨⟨by simp, ?_⟩, ofWord_number (by simp [looksNumeric, hc]) hread⟩
      intro c' hc'
      rcases List.mem_cons.1 hc' with rfl | hc'
      · decide
      · exact hword.not_ends c' hc'
  | false =>
      rw [hneg, if_neg (by decide)] at hread
      rw [if_neg (by decide)]
      exact ⟨hword, ofWord_number (looksNumeric_of_isDigit hc rest) hread⟩

/-- The name of an infinity is a symbol. -/
theorem ofWord_plain_of_isInf {x : Float} (hnan : x.isNaN = false) (hinf : x.isInf = true) :
    IsWord (Number.plain x).toList ∧
      ofWord (Number.plain x).toList = .symbol ⟨Number.plain x⟩ := by
  have hplain : Number.plain x = if Number.isNegative x then "-inf" else "inf" := by
    rw [Number.plain, hnan, hinf, Number.signed]
    cases Number.isNegative x <;> rfl
  rw [hplain]
  cases Number.isNegative x <;> exact ⟨by decide, by decide⟩

end Token

namespace Atom

/-- The atom that the text of an atom denotes: the name of an infinity is a symbol. -/
def reread : Atom → Atom
  | .number x => if x.isInf then .symbol ⟨Number.plain x⟩ else .number x
  | a => a

/-- The text of an atom other than a string is a word. -/
theorem isWord_render {a : Atom} (ha : a.IsReadable) (hs : ∀ s, a ≠ .string s) :
    Token.IsWord a.render.toList ∧ Token.ofWord a.render.toList = a.reread := by
  cases a with
  | string s => exact absurd rfl (hs s)
  | bool b => cases b <;> exact ⟨by decide, by decide⟩
  | symbol s => exact ha
  | number x =>
      by_cases hinf : x.isInf = true
      · have hplain := Token.ofWord_plain_of_isInf ha hinf
        simpa [render, reread, hinf] using hplain
      · rw [Bool.not_eq_true] at hinf
        have hplain := Token.ofWord_plain ha hinf
        simpa [render, reread, hinf] using hplain

end Atom

/-! ## Texts of terms -/

namespace Term

mutual

/-- The tokens of the text of a term and those of what follows.  Nothing follows a string that
cannot be read; forms that the reader does not return are left out. -/
def scanned : Term → List Token → List Token
  | .atom (.string s), after =>
      if s.toList.any Text.isSpelledOut then [.fault .badEscape] else .atom (.string s) :: after
  | .atom a, after => .atom a.reread :: after
  | .list items, after => .leftParen :: scannedAll items (.rightParen :: after)
  | .quoted inner, after => .quote :: scanned inner after
  | .func _ _, _ => []
  | .typeDef _ _ _ _, _ => []

def scannedAll : List Term → List Token → List Token
  | [], after => after
  | t :: ts, after => scanned t (scannedAll ts after)

end

/-- The text of an atom is one token. -/
theorem scan_render_atom {a : Atom} (ha : a.IsReadable) {rest : List Char}
    (h : Token.Delimited rest) :
    Token.scan .between ((Term.atom a).render.toList ++ rest) =
      (Term.atom a).scanned (Token.scan .between rest) := by
  have hword : (∀ s, a ≠ .string s) →
      Token.scan .between (a.render.toList ++ rest) =
        .atom a.reread :: Token.scan .between rest := by
    intro hs
    rcases Atom.isWord_render ha hs with ⟨hword, hatom⟩
    rw [Token.scan_word hword h, hatom]
  rw [render]
  cases a with
  | string s => exact Token.scan_string s rest
  | number x => exact hword (by simp)
  | bool b => exact hword (by simp)
  | symbol s => exact hword (by simp)

/-- The text of a term starts with a character that may stand right after a quote. -/
theorem exists_head {t : Term} (ht : t.Readable) :
    ∃ c cs, t.render.toList = c :: cs ∧ (Text.isBlank c || c == ';' || c == ')') = false := by
  cases ht with
  | @atom a ha =>
      rw [render]
      by_cases hs : ∃ s, a = .string s
      · rcases hs with ⟨s, rfl⟩
        refine ⟨'"', s.toList.flatMap Text.escapeChar ++ ['"'], ?_, by decide⟩
        simp [Atom.render, Text.quote]
      · rcases (Atom.isWord_render ha (fun s heq => hs ⟨s, heq⟩)).1 with ⟨hne, hends⟩
        cases htext : a.render.toList with
        | nil => exact absurd htext hne
        | cons c cs =>
            have hc := hends c (by simp [htext])
            simp only [Token.endsWord, Bool.or_eq_false_iff] at hc
            refine ⟨c, cs, rfl, ?_⟩
            simp [hc]
  | @list items h =>
      refine ⟨'(', (spaced (renderAll items)).toList ++ [')'], ?_, by decide⟩
      simp [render]
  | @quoted inner h =>
      refine ⟨'\'', inner.render.toList, ?_, by decide⟩
      simp [render]

/-- Behind a quote the text of a term is scanned as elsewhere. -/
theorem scan_afterQuote {t : Term} (ht : t.Readable) (rest : List Char) :
    Token.scan .afterQuote (t.render.toList ++ rest) =
      Token.scan .between (t.render.toList ++ rest) := by
  rcases exists_head ht with ⟨c, cs, htext, hc⟩
  simp [htext, Token.scan_cons, Token.step, hc]

theorem spaced_cons_cons (s s' : String) (ss : List String) :
    spaced (s :: s' :: ss) = s ++ " " ++ spaced (s' :: ss) :=
  String.intercalate_cons_cons

mutual

/-- The text of a readable term is scanned as its tokens. -/
theorem scan_render : ∀ {t : Term}, t.Readable → ∀ {rest : List Char}, Token.Delimited rest →
    Token.scan .between (t.render.toList ++ rest) = t.scanned (Token.scan .between rest)
  | .atom a, ht, rest, hrest => by
      cases ht with
      | atom ha => exact scan_render_atom ha hrest
  | .quoted inner, ht, rest, hrest => by
      cases ht with
      | quoted hinner =>
          have htext : (Term.quoted inner).render.toList ++ rest
              = '\'' :: (inner.render.toList ++ rest) := by
            simp [render]
          have hstart : Token.start '\'' = ([.quote], .afterQuote) := rfl
          rw [htext, Token.scan_cons, Token.step, hstart, scan_afterQuote hinner,
            scan_render hinner hrest, scanned]
          rfl
  | .list items, ht, rest, hrest => by
      cases ht with
      | list hitems =>
          have htext : (Term.list items).render.toList ++ rest
              = '(' :: ((spaced (renderAll items)).toList ++ ')' :: rest) := by
            simp [render]
          have hstart : Token.start '(' = ([.leftParen], .between) := rfl
          rw [htext, Token.scan_cons, Token.step, hstart, scan_renderAll hitems, scanned]
          rfl
  | .func _ _, ht, _, _ => by cases ht
  | .typeDef _ _ _ _, ht, _, _ => by cases ht

/-- The texts of several terms are scanned one after the other, up to the closing parenthesis. -/
theorem scan_renderAll : ∀ {ts : List Term}, (∀ t ∈ ts, t.Readable) → ∀ rest : List Char,
    Token.scan .between ((spaced (renderAll ts)).toList ++ ')' :: rest) =
      scannedAll ts (.rightParen :: Token.scan .between rest)
  | [], _, rest => rfl
  | [t], hts, rest => by
      have hdelimited : Token.Delimited (')' :: rest) := Token.delimited_cons rfl rest
      have ht := scan_render (hts t List.mem_cons_self) hdelimited
      have htext : spaced (renderAll [t]) = t.render := String.intercalate_singleton
      have hparen : Token.scan .between (')' :: rest)
          = .rightParen :: Token.scan .between rest := rfl
      rw [htext, ht, hparen, scannedAll, scannedAll]
  | t :: u :: us, hts, rest => by
      have hrest := scan_renderAll (fun v hv => hts v (List.mem_cons_of_mem t hv)) rest
      have htext : (spaced (renderAll (t :: u :: us))).toList ++ ')' :: rest = t.render.toList
          ++ ' ' :: ((spaced (renderAll (u :: us))).toList ++ ')' :: rest) := by
        simp [renderAll, spaced_cons_cons]
      -- The blank between two items ends a word of the first and is then skipped.
      have hspace : ∀ cs, Token.scan .between (' ' :: cs) = Token.scan .between cs := fun _ => rfl
      rw [htext, scan_render (hts t List.mem_cons_self) (Token.delimited_cons rfl _), hspace, hrest]
      rfl

end

end Term
end RegisterLisp
