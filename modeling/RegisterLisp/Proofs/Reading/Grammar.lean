import RegisterLisp.Proofs.Reading.Printed

/-!
# The grammar of source text

What a source text denotes, said without a scanner or a reader.  Every relation here is between a
text and what is left of it behind the thing that was derived:

* `Trivia` – blanks and comments; a comment goes on to a line feed or to the end of the text;
* `Characters` – the inside of a string, with six escapes;
* `Denotes` – the atom that a bare word stands for;
* `Expr` and `Exprs` – one form, and several of them, each with trivia behind it;
* `Program` – a whole text.

The reader accepts exactly the texts that the grammar derives, with the forms that it derives for
them (`readAll_eq_ok_iff_program`).  One direction follows the derivation.  For the other one
`Completes` says what the lists and quotes that are still open ask of the rest of the text, and the
induction is on the length of that rest.
-/

namespace RegisterLisp
namespace Grammar

/-! ## The grammar -/

/-- Blanks and comments, none at all included. -/
inductive Trivia : List Char → List Char → Prop
  | nothing (cs : List Char) : Trivia cs cs
  | blank {c : Char} {cs rest : List Char} (hc : Text.isBlank c = true) (h : Trivia cs rest) :
      Trivia (c :: cs) rest
  | comment {body cs rest : List Char} (hbody : ∀ c ∈ body, c ≠ '\n')
      (hend : ∀ c ∈ cs.head?, c = '\n') (h : Trivia cs rest) : Trivia (';' :: (body ++ cs)) rest

inductive Escape : Char → Char → Prop
  | lineFeed : Escape 'n' '\n'
  | carriageReturn : Escape 'r' '\r'
  | tab : Escape 't' '\t'
  | backslash : Escape '\\' '\\'
  | quote : Escape '"' '"'
  | null : Escape '0' '\x00'

/-- Characters of a string, and what they stand for. -/
inductive Characters : List Char → List Char → List Char → Prop
  | nothing (cs : List Char) : Characters cs [] cs
  | plain {c : Char} {cs s rest : List Char} (hquote : c ≠ '"') (hbackslash : c ≠ '\\')
      (h : Characters cs s rest) : Characters (c :: cs) (c :: s) rest
  | escape {letter c : Char} {cs s rest : List Char} (hc : Escape letter c)
      (h : Characters cs s rest) : Characters ('\\' :: letter :: cs) (c :: s) rest

/-- Characters that do not belong to a bare word. -/
def Breaks (c : Char) : Prop :=
  Text.isBlank c = true ∨ c ∈ ['(', ')', '\'', '"', ';']

/-- A digit, or a sign or a point and then a digit. -/
def StartsNumber (w : List Char) : Prop :=
  ∃ d rest, d.isDigit = true ∧
    (w = d :: rest ∨ ∃ c, (c = '-' ∨ c = '+' ∨ c = '.') ∧ w = c :: d :: rest)

/-- The atom that a bare word stands for. -/
inductive Denotes : List Char → Atom → Prop
  | true : Denotes ['t', 'r', 'u', 'e'] (.bool Bool.true)
  | false : Denotes ['f', 'a', 'l', 's', 'e'] (.bool Bool.false)
  | number {w : List Char} {x : Float} (hw : StartsNumber w) (hx : Number.ofChars? w = some x) :
      Denotes w (.number x)
  | symbol {w : List Char} (htrue : w ≠ ['t', 'r', 'u', 'e'])
      (hfalse : w ≠ ['f', 'a', 'l', 's', 'e'])
      (hnumber : StartsNumber w → Number.ofChars? w = none) :
      Denotes w (.symbol ⟨String.ofList w⟩)

mutual

inductive Expr : List Char → Term → List Char → Prop
  | list {cs cs' rest : List Char} {ts : List Term} (htrivia : Trivia cs cs')
      (hitems : Exprs cs' ts (')' :: rest)) : Expr ('(' :: cs) (.list ts) rest
  | quoted {cs rest : List Char} {t : Term} (h : Expr cs t rest) :
      Expr ('\'' :: cs) (.quoted t) rest
  | string {cs s rest : List Char} (h : Characters cs s ('"' :: rest)) :
      Expr ('"' :: cs) (.atom (.string (String.ofList s))) rest
  | word {w rest : List Char} {a : Atom} (hne : w ≠ []) (hw : ∀ c ∈ w, ¬ Breaks c)
      (hrest : ∀ c ∈ rest.head?, Breaks c) (ha : Denotes w a) : Expr (w ++ rest) (.atom a) rest

inductive Exprs : List Char → List Term → List Char → Prop
  | nothing (cs : List Char) : Exprs cs [] cs
  | cons {cs cs' cs'' rest : List Char} {t : Term} {ts : List Term} (h : Expr cs t cs')
      (htrivia : Trivia cs' cs'') (hrest : Exprs cs'' ts rest) : Exprs cs (t :: ts) rest

end

def Program (text : List Char) (forms : List Term) : Prop :=
  ∃ cs, Trivia text cs ∧ Exprs cs forms []

/-! ## Characters and words -/

theorem endsWord_iff {c : Char} : Token.endsWord c = true ↔ Breaks c := by
  simp [Token.endsWord, Breaks, or_assoc]

theorem endsWord_eq_false_iff {c : Char} : Token.endsWord c = false ↔ ¬ Breaks c := by
  rw [← endsWord_iff, Bool.not_eq_true]

/-- What is tried as a number is what looks like the start of one. -/
theorem looksNumeric_iff {w : List Char} : Token.looksNumeric w = true ↔ StartsNumber w := by
  constructor
  · intro h
    match w with
    | [] => cases h
    | [d] => exact ⟨d, [], h, Or.inl rfl⟩
    | c :: d :: rest =>
        simp only [Token.looksNumeric, Bool.or_eq_true, Bool.and_eq_true, beq_iff_eq,
          or_assoc] at h
        rcases h with hc | ⟨hsign, hd⟩
        · exact ⟨c, d :: rest, hc, Or.inl rfl⟩
        · exact ⟨d, rest, hd, Or.inr ⟨c, hsign, rfl⟩⟩
  · rintro ⟨d, rest, hd, rfl | ⟨c, hsign, rfl⟩⟩
    · exact Token.looksNumeric_of_isDigit hd rest
    · rcases hsign with rfl | rfl | rfl <;> simp [Token.looksNumeric, hd]

/-- A word that is no boolean is a number or else a symbol. -/
theorem ofWord_of_ne {w : List Char} (htrue : w ≠ ['t', 'r', 'u', 'e'])
    (hfalse : w ≠ ['f', 'a', 'l', 's', 'e']) :
    Token.ofWord w = (if Token.looksNumeric w then Number.ofChars? w else none).elim
      (.symbol ⟨String.ofList w⟩) .number := by
  have hne : ∀ name : List Char, w ≠ name → String.ofList w ≠ String.ofList name :=
    fun name hname heq => hname (String.ofList_injective heq)
  rw [Token.ofWord, if_neg (hne ['t', 'r', 'u', 'e'] htrue),
    if_neg (hne ['f', 'a', 'l', 's', 'e'] hfalse)]
  cases if Token.looksNumeric w then Number.ofChars? w else none with
  | none => rfl
  | some x => rfl

/-- The scanner takes a word for the atom that it stands for. -/
theorem denotes_iff {w : List Char} {a : Atom} : Denotes w a ↔ Token.ofWord w = a := by
  constructor
  · intro h
    cases h with
    | true => decide
    | false => decide
    | number hw hx => exact Token.ofWord_number (looksNumeric_iff.2 hw) hx
    | symbol htrue hfalse hnumber =>
        rw [ofWord_of_ne htrue hfalse]
        cases hx : if Token.looksNumeric w then Number.ofChars? w else none with
        | none => rfl
        | some x =>
            obtain ⟨hw, hx⟩ := Option.ite_none_right_eq_some.1 hx
            rw [hnumber (looksNumeric_iff.1 hw)] at hx
            cases hx
  · rintro rfl
    by_cases htrue : w = ['t', 'r', 'u', 'e']
    · subst htrue
      exact Denotes.true
    · by_cases hfalse : w = ['f', 'a', 'l', 's', 'e']
      · subst hfalse
        exact Denotes.false
      · rw [ofWord_of_ne htrue hfalse]
        cases hx : if Token.looksNumeric w then Number.ofChars? w else none with
        | none =>
            refine Denotes.symbol htrue hfalse fun hw => ?_
            rwa [if_pos (looksNumeric_iff.2 hw)] at hx
        | some x =>
            obtain ⟨hw, hx⟩ := Option.ite_none_right_eq_some.1 hx
            exact Denotes.number (looksNumeric_iff.1 hw) hx

/-- The table of escapes has six entries. -/
theorem escape_iff {letter c : Char} : Text.unescape? letter = some c ↔ Escape letter c := by
  constructor
  · intro h
    obtain ⟨p, hfind, rfl⟩ := Option.map_eq_some_iff.1 h
    have hletter : p.1 = letter := by simpa using List.find?_some hfind
    have hmem := List.mem_of_find?_eq_some hfind
    subst hletter
    simp only [Text.escapes, List.mem_cons, List.not_mem_nil, or_false] at hmem
    rcases hmem with rfl | rfl | rfl | rfl | rfl | rfl <;> constructor
  · intro h
    cases h <;> rfl

/-! ## Scanning what was derived -/

section Scanning

open Token (scan scan_cons)

variable {cs rest : List Char}

theorem scan_blank {c : Char} (hc : Text.isBlank c = true) (cs : List Char) :
    scan .between (c :: cs) = scan .between cs := by
  simp [scan_cons, Token.step, Token.start, hc]

/-- A comment is skipped up to the line feed behind it, which is a blank. -/
theorem scan_comment {body : List Char} (hbody : ∀ c ∈ body, c ≠ '\n')
    (hend : ∀ c ∈ cs.head?, c = '\n') :
    scan .comment (body ++ cs) = scan .between cs := by
  induction body with
  | nil =>
      cases cs with
      | nil => rfl
      | cons c cs =>
          obtain rfl : c = '\n' := hend c rfl
          rfl
  | cons c body ih =>
      have hc : c ≠ '\n' := hbody c List.mem_cons_self
      have hrest := ih fun c' hc' => hbody c' (List.mem_cons_of_mem _ hc')
      simpa [scan_cons, Token.step, hc] using hrest

/-- The scanner goes over trivia without a trace. -/
theorem Trivia.scan_eq (h : Trivia cs rest) : scan .between cs = scan .between rest := by
  induction h with
  | nothing cs => rfl
  | blank hc _ ih => rw [scan_blank hc, ih]
  | comment hbody hend _ ih =>
      rw [← ih, ← scan_comment hbody hend]
      rfl

/-- It takes the characters of a string into the current string. -/
theorem Characters.scan_eq {s : List Char} (h : Characters cs s rest) :
    ∀ seen, scan (.string seen) cs = scan (.string (s.reverse ++ seen)) rest := by
  induction h with
  | nothing cs => exact fun _ => rfl
  | @plain c _ _ _ hquote hbackslash _ ih =>
      intro seen
      have hrest := ih (c :: seen)
      simpa [scan_cons, Token.step, hquote, hbackslash] using hrest
  | @escape _ c _ _ _ hc _ ih =>
      intro seen
      have hrest := ih (c :: seen)
      simpa [scan_cons, Token.step, escape_iff.2 hc] using hrest

/-- Behind a quote the scanner goes on as elsewhere, except for trivia and a closing parenthesis. -/
theorem scan_afterQuote_cons {c : Char} (hc : (Text.isBlank c || c == ';' || c == ')') = false)
    (cs : List Char) : scan .afterQuote (c :: cs) = scan .between (c :: cs) := by
  simp [scan_cons, Token.step, hc]

/-- A form starts with a character that may stand right behind a quote. -/
theorem Expr.scan_afterQuote {t : Term} (h : Expr cs t rest) :
    scan .afterQuote cs = scan .between cs := by
  cases h with
  | list _ _ => exact scan_afterQuote_cons (by decide) _
  | quoted _ => exact scan_afterQuote_cons (by decide) _
  | string _ => exact scan_afterQuote_cons (by decide) _
  | @word w _ _ hne hw _ _ =>
      match w, hne with
      | c :: w, _ =>
          have hc := endsWord_eq_false_iff.2 (hw c List.mem_cons_self)
          simp only [Token.endsWord, Bool.or_eq_false_iff] at hc
          exact scan_afterQuote_cons (by simp [hc]) _

theorem delimited_iff : Token.Delimited rest ↔ ∀ c ∈ rest.head?, Breaks c := by
  simp only [Token.Delimited, endsWord_iff]

end Scanning

/-! ## Reading what was derived -/

section Reading

open Token (scan scan_cons)
open Term (Reading Opening)
open Term.Reading (place steps)

mutual

/-- The reader puts a form that was derived where it belongs. -/
theorem Expr.steps_eq : ∀ {cs rest : List Char} {t : Term}, Expr cs t rest → ∀ r : Reading,
    r.steps (scan .between cs) = (place r.done r.openings t).steps (scan .between rest)
  | _, rest, _, @Expr.list cs _ _ ts htrivia hitems, r => by
      have hinside := hitems.steps_inside r.done [] r.openings
      rw [← htrivia.scan_eq, List.append_nil] at hinside
      -- The parentheses open a list and close it again, and the items go in between.
      have hopen : r.steps (scan .between ('(' :: cs)) =
          Reading.steps ⟨r.done, .list [] :: r.openings⟩ (scan .between cs) := rfl
      have hclose : Reading.steps ⟨r.done, .list ts.reverse :: r.openings⟩
          (scan .between (')' :: rest)) =
            (place r.done r.openings (.list ts.reverse.reverse)).steps (scan .between rest) := rfl
      rw [hopen, hinside, hclose, List.reverse_reverse]
  | _, _, _, .quoted h, r => by
      have hinner := h.steps_eq ⟨r.done, .quote :: r.openings⟩
      rw [← h.scan_afterQuote] at hinner
      exact hinner
  | _, rest, _, @Expr.string cs s _ h, r => by
      have hscan : scan .between ('"' :: cs) =
          .atom (.string (String.ofList s)) :: scan .between rest := by
        have hstring := h.scan_eq []
        rw [List.append_nil, scan_cons (.string _), Token.step, if_pos rfl,
          List.reverse_reverse] at hstring
        exact hstring
      rw [hscan]
      rfl
  | _, _, _, .word hne hw hrest ha, r => by
      have hword : Token.IsWord _ := ⟨hne, fun c hc => endsWord_eq_false_iff.2 (hw c hc)⟩
      rw [Token.scan_word hword (delimited_iff.2 hrest), denotes_iff.1 ha]
      rfl

/-- The items of a list go to the list. -/
theorem Exprs.steps_inside : ∀ {cs rest : List Char} {ts : List Term}, Exprs cs ts rest →
    ∀ (done items : List Term) (openings : List Opening),
    Reading.steps ⟨done, .list items :: openings⟩ (scan .between cs) =
      Reading.steps ⟨done, .list (ts.reverse ++ items) :: openings⟩ (scan .between rest)
  | _, _, _, .nothing _, _, _, _ => rfl
  | _, _, _, .cons h htrivia hrest, done, items, openings => by
      rw [h.steps_eq, htrivia.scan_eq, List.reverse_cons, List.append_assoc]
      exact hrest.steps_inside done (_ :: items) openings

end

/-- The forms of a program go to the top level. -/
theorem Exprs.steps_top : ∀ {cs rest : List Char} {ts : List Term}, Exprs cs ts rest →
    ∀ done : List Term,
    Reading.steps ⟨done, []⟩ (scan .between cs) =
      Reading.steps ⟨ts.reverse ++ done, []⟩ (scan .between rest)
  | _, _, _, .nothing _, _ => rfl
  | _, _, _, .cons h htrivia hrest, done => by
      rw [h.steps_eq, htrivia.scan_eq, List.reverse_cons, List.append_assoc]
      exact hrest.steps_top (_ :: done)

end Reading

/-! ## Deriving what was read -/

/-- The first thing of a text without trivia in front, with the tokens of the whole text. -/
inductive Starts : List Char → List Token → Prop
  | nothing : Starts [] []
  | leftParen (cs : List Char) : Starts ('(' :: cs) (.leftParen :: Token.scan .between cs)
  | rightParen (cs : List Char) : Starts (')' :: cs) (.rightParen :: Token.scan .between cs)
  | quote (cs : List Char) : Starts ('\'' :: cs) (.quote :: Token.scan .afterQuote cs)
  | string {cs s rest : List Char} (h : Characters cs s ('"' :: rest)) :
      Starts ('"' :: cs) (.atom (.string (String.ofList s)) :: Token.scan .between rest)
  | word {w rest : List Char} (hne : w ≠ []) (hw : ∀ c ∈ w, ¬ Breaks c)
      (hrest : ∀ c ∈ rest.head?, Breaks c) :
      Starts (w ++ rest) (.atom (Token.ofWord w) :: Token.scan .between rest)
  | fault (cs : List Char) (cause : ReadError) : Starts cs [.fault cause]

section Scanned

open Token (scan scan_cons)

/-- A string that was begun is closed or cannot be read. -/
theorem exists_characters : ∀ cs seen : List Char,
    (∃ s rest, Characters cs s ('"' :: rest) ∧
      scan (.string seen) cs =
        .atom (.string (String.ofList (seen.reverse ++ s))) :: scan .between rest) ∨
    ∃ cause, scan (.string seen) cs = [.fault cause]
  | [], _ => Or.inr ⟨_, rfl⟩
  | c :: cs, seen => by
      by_cases hquote : c = '"'
      · subst hquote
        refine Or.inl ⟨[], cs, Characters.nothing _, ?_⟩
        simp [scan_cons, Token.step]
      · by_cases hbackslash : c = '\\'
        · subst hbackslash
          cases cs with
          | nil => exact Or.inr ⟨.badEscape, rfl⟩
          | cons letter cs =>
              have hescape : scan (.string seen) ('\\' :: letter :: cs) =
                  scan (.escape seen) (letter :: cs) := rfl
              cases hletter : Text.unescape? letter with
              | none =>
                  refine Or.inr ⟨.badEscape, ?_⟩
                  simp [hescape, scan_cons, Token.step, hletter, Token.scan_stuck]
              | some c =>
                  have hstep : scan (.escape seen) (letter :: cs) =
                      scan (.string (c :: seen)) cs := by
                    simp [scan_cons, Token.step, hletter]
                  rcases exists_characters cs (c :: seen) with ⟨s, rest, hs, hscan⟩ | hfault
                  · refine Or.inl ⟨c :: s, rest, Characters.escape (escape_iff.1 hletter) hs, ?_⟩
                    rw [hescape, hstep, hscan, List.reverse_cons, List.append_assoc,
                      List.singleton_append]
                  · exact Or.inr (by rwa [hescape, hstep])
        · have hstep : scan (.string seen) (c :: cs) = scan (.string (c :: seen)) cs := by
            simp [scan_cons, Token.step, hquote, hbackslash]
          rcases exists_characters cs (c :: seen) with ⟨s, rest, hs, hscan⟩ | hfault
          · refine Or.inl ⟨c :: s, rest, Characters.plain hquote hbackslash hs, ?_⟩
            rw [hstep, hscan, List.reverse_cons, List.append_assoc, List.singleton_append]
          · exact Or.inr (by rwa [hstep])

/-- A text splits where a condition first fails. -/
theorem exists_split (p : Char → Bool) (cs : List Char) :
    ∃ front rest, cs = front ++ rest ∧ (∀ c ∈ front, p c = true) ∧
      ∀ c ∈ rest.head?, p c = false := by
  refine ⟨cs.takeWhile p, cs.dropWhile p, List.takeWhile_append_dropWhile.symm, ?_, ?_⟩
  · exact fun c hc => List.mem_takeWhile_imp hc
  · intro c hc
    have hhead := List.head?_dropWhile_not p cs
    rw [Option.mem_def.1 hc] at hhead
    simpa using hhead

/-- A word runs up to the first character that does not belong to one. -/
theorem starts_word {c : Char} (hc : Token.endsWord c = false) (cs : List Char) :
    Starts (c :: cs) (scan .between (c :: cs)) := by
  obtain ⟨w, rest, rfl, hw, hrest⟩ := exists_split (fun c => !Token.endsWord c) cs
  have hends : ∀ c' ∈ c :: w, Token.endsWord c' = false := by
    simpa [hc] using hw
  have hdelimited : Token.Delimited rest := by
    simpa [Token.Delimited] using hrest
  have hne : c :: w ≠ [] := List.cons_ne_nil c w
  rw [← List.cons_append, Token.scan_word ⟨hne, hends⟩ hdelimited]
  exact Starts.word hne (fun c' hc' => endsWord_eq_false_iff.1 (hends c' hc'))
    (delimited_iff.1 hdelimited)

/-- A character that is no trivia starts a thing. -/
theorem starts_cons {c : Char} (hblank : Text.isBlank c = false) (hcomment : c ≠ ';')
    (cs : List Char) : Starts (c :: cs) (scan .between (c :: cs)) := by
  by_cases hends : Token.endsWord c = true
  · have hmark : c = '(' ∨ c = ')' ∨ c = '\'' ∨ c = '"' := by
      simpa [Token.endsWord, hblank, hcomment, or_assoc] using hends
    rcases hmark with rfl | rfl | rfl | rfl
    · exact Starts.leftParen cs
    · exact Starts.rightParen cs
    · exact Starts.quote cs
    · have hbegin : scan .between ('"' :: cs) = scan (.string []) cs := rfl
      rw [hbegin]
      rcases exists_characters cs [] with ⟨s, rest, hs, hscan⟩ | ⟨cause, hfault⟩
      · rw [hscan]
        exact Starts.string hs
      · rw [hfault]
        exact Starts.fault _ cause
  · exact starts_word (Bool.not_eq_true _ ▸ hends) cs

/-- Every text has trivia in front and then starts with some thing. -/
theorem exists_starts : ∀ cs : List Char, ∃ cs', Trivia cs cs' ∧ Starts cs' (scan .between cs)
  | [] => ⟨[], Trivia.nothing _, Starts.nothing⟩
  | c :: cs => by
      by_cases hblank : Text.isBlank c = true
      · obtain ⟨cs', htrivia, hstarts⟩ := exists_starts cs
        exact ⟨cs', Trivia.blank hblank htrivia, by rwa [scan_blank hblank]⟩
      · by_cases hcomment : c = ';'
        · subst hcomment
          obtain ⟨body, rest, hsplit, hbody, hrest⟩ := exists_split (fun c => c ≠ '\n') cs
          have hlength : cs.length = body.length + rest.length := by simp [hsplit]
          have hline : ∀ c ∈ body, c ≠ '\n' := by simpa using hbody
          have hend : ∀ c ∈ rest.head?, c = '\n' := by simpa using hrest
          have hskip : scan .between (';' :: (body ++ rest)) = scan .between rest :=
            scan_comment hline hend
          obtain ⟨cs', htrivia, hstarts⟩ := exists_starts rest
          rw [hsplit]
          exact ⟨cs', Trivia.comment hline hend htrivia, by rwa [hskip]⟩
        · exact ⟨_, Trivia.nothing _, starts_cons (Bool.not_eq_true _ ▸ hblank) hcomment cs⟩
termination_by cs => cs.length
decreasing_by
  · simp
  · rw [List.length_cons]
    omega

end Scanned

theorem Characters.length_le {cs s rest : List Char} (h : Characters cs s rest) :
    rest.length ≤ cs.length := by
  induction h with
  | nothing _ => exact Nat.le_refl _
  | plain _ _ _ ih => exact Nat.le_succ_of_le ih
  | escape _ _ ih => exact Nat.le_succ_of_le (Nat.le_succ_of_le ih)

theorem Trivia.length_le {cs rest : List Char} (h : Trivia cs rest) :
    rest.length ≤ cs.length := by
  induction h with
  | nothing _ => exact Nat.le_refl _
  | blank _ _ ih => exact Nat.le_succ_of_le ih
  | comment _ _ _ ih =>
      rw [List.length_cons, List.length_append]
      omega

mutual

/-- A form takes at least one character. -/
theorem Expr.length_lt : ∀ {cs rest : List Char} {t : Term}, Expr cs t rest →
    rest.length < cs.length
  | _, _, _, .list htrivia hitems => by
      have hbefore := htrivia.length_le
      have hinside := hitems.length_le
      simp only [List.length_cons] at hinside ⊢
      omega
  | _, _, _, .quoted h => Nat.lt_succ_of_lt h.length_lt
  | _, _, _, .string h => by
      have hinside := h.length_le
      simp only [List.length_cons] at hinside ⊢
      omega
  | _, _, _, .word hne _ _ _ => by
      have hpos := List.length_pos_iff.2 hne
      rw [List.length_append]
      omega

theorem Exprs.length_le : ∀ {cs rest : List Char} {ts : List Term}, Exprs cs ts rest →
    rest.length ≤ cs.length
  | _, _, _, .nothing _ => Nat.le_refl _
  | _, _, _, .cons h htrivia hrest =>
      Nat.le_trans hrest.length_le (Nat.le_trans htrivia.length_le (Nat.le_of_lt h.length_lt))

end

/-- Trivia behind trivia is trivia. -/
theorem Trivia.trans {cs cs' cs'' : List Char} (h : Trivia cs cs') (h' : Trivia cs' cs'') :
    Trivia cs cs'' := by
  induction h with
  | nothing _ => exact h'
  | blank hc _ ih => exact Trivia.blank hc (ih h')
  | comment hbody hend _ ih => exact Trivia.comment hbody hend (ih h')

section Derived

open Token (scan)
open Term (Reading Opening)
open Term.Reading (place)

/-- What a text has to be so that the reader, with some forms still open, returns the given ones:
the open forms are closed one after the other, the innermost first. -/
inductive Completes : Reading → List Char → List Term → Prop
  | top {done ts : List Term} {cs cs' : List Char} (htrivia : Trivia cs cs')
      (h : Exprs cs' ts []) : Completes ⟨done, []⟩ cs (done.reverse ++ ts)
  | list {done items ts out : List Term} {openings : List Opening} {cs cs' rest : List Char}
      (htrivia : Trivia cs cs') (h : Exprs cs' ts (')' :: rest))
      (hrest : Completes (place done openings (.list (items.reverse ++ ts))) rest out) :
      Completes ⟨done, .list items :: openings⟩ cs out
  | quote {done out : List Term} {openings : List Opening} {cs rest : List Char} {t : Term}
      (h : Expr cs t rest) (hrest : Completes (place done openings (.quoted t)) rest out) :
      Completes ⟨done, .quote :: openings⟩ cs out

/-- How the scanner goes on: what is quoted stands right behind its quote. -/
def mode (r : Reading) : Token.Mode :=
  match r.openings with
  | .quote :: _ => .afterQuote
  | _ => .between

/-- Behind a finished term the scanner is between tokens, since all quotes around it are closed. -/
theorem mode_place (done : List Term) (openings : List Opening) (t : Term) :
    mode (place done openings t) = .between := by
  induction openings generalizing t with
  | nil => rfl
  | cons opening rest ih =>
      cases opening with
      | list items => rfl
      | quote => exact ih (.quoted t)

variable {done out : List Term} {openings : List Opening} {cs rest : List Char}

/-- A form may stand in front of a text once the reader has taken it. -/
theorem Completes.expr {t : Term} (h : Expr cs t rest)
    (hrest : Completes (place done openings t) rest out) : Completes ⟨done, openings⟩ cs out := by
  match openings with
  | [] =>
      cases hrest with
      | top htrivia hforms =>
          rw [List.reverse_cons, List.append_assoc]
          exact Completes.top (Trivia.nothing cs) (Exprs.cons h htrivia hforms)
  | .list items :: openings =>
      cases hrest with
      | list htrivia hitems hclosed =>
          rw [List.reverse_cons, List.append_assoc] at hclosed
          exact Completes.list (Trivia.nothing cs) (Exprs.cons h htrivia hitems) hclosed
  | .quote :: openings => exact Completes.quote h hrest

/-- So may trivia, but not behind a quote. -/
theorem Completes.trivia {r : Reading} (htrivia : Trivia cs rest) (hmode : mode r = .between)
    (hrest : Completes r rest out) : Completes r cs out := by
  cases hrest with
  | top htrivia' h => exact Completes.top (htrivia.trans htrivia') h
  | list htrivia' h hclosed => exact Completes.list (htrivia.trans htrivia') h hclosed
  | quote h hclosed => cases hmode

def Reads (r : Reading) (tokens : List Token) (out : List Term) : Prop :=
  ∃ last, r.steps tokens = .ok last ∧ last.forms = .ok out

/-- At the end of the text nothing may be open. -/
theorem reads_nil {r : Reading} (h : Reads r [] out) : r.openings = [] ∧ out = r.done.reverse := by
  obtain ⟨last, hsteps, hforms⟩ := h
  cases hsteps
  rw [Reading.forms] at hforms
  split at hforms
  · rename_i hempty
    cases hforms
    exact ⟨List.isEmpty_iff.1 hempty, rfl⟩
  · cases hforms

/-- A token is taken by one step of the reader. -/
theorem reads_cons {r : Reading} {token : Token} {tokens : List Token}
    (h : Reads r (token :: tokens) out) :
    ∃ next, r.step token = .ok next ∧ Reads next tokens out := by
  obtain ⟨last, hsteps, hforms⟩ := h
  rw [Reading.steps] at hsteps
  split at hsteps
  · rename_i next hnext
    exact ⟨next, hnext, last, hsteps, hforms⟩
  · cases hsteps

/-- A step of the derivation: the first thing of a text goes in front of what is derived from the
rest. -/
theorem Starts.completes {r : Reading} {tokens : List Token} (h : Starts cs tokens)
    (hreads : Reads r tokens out)
    (ih : ∀ (r' : Reading) (cs' : List Char), cs'.length < cs.length →
      Reads r' (scan (mode r') cs') out → Completes r' cs' out) : Completes r cs out := by
  obtain ⟨done, openings⟩ := r
  cases h with
  | nothing =>
      obtain ⟨hopenings, rfl⟩ := reads_nil hreads
      obtain rfl : openings = [] := hopenings
      rw [← List.append_nil done.reverse]
      exact Completes.top (Trivia.nothing []) (Exprs.nothing [])
  | leftParen cs =>
      obtain ⟨next, hnext, hrest⟩ := reads_cons hreads
      cases hnext
      cases ih ⟨done, .list [] :: openings⟩ cs (by simp) hrest with
      | list htrivia hitems hclosed => exact Completes.expr (Expr.list htrivia hitems) hclosed
  | rightParen cs =>
      obtain ⟨next, hnext, hrest⟩ := reads_cons hreads
      match openings, hnext with
      | .list items :: openings, hnext =>
          cases hnext
          rw [← mode_place done openings (.list items.reverse)] at hrest
          have hclosed := ih _ cs (by simp) hrest
          rw [← List.append_nil items.reverse] at hclosed
          exact Completes.list (Trivia.nothing _) (Exprs.nothing _) hclosed
  | quote cs =>
      obtain ⟨next, hnext, hrest⟩ := reads_cons hreads
      cases hnext
      cases ih ⟨done, .quote :: openings⟩ cs (by simp) hrest with
      | quote hinner hclosed => exact Completes.expr (Expr.quoted hinner) hclosed
  | @string inner s rest hs =>
      obtain ⟨next, hnext, hrest⟩ := reads_cons hreads
      cases hnext
      rw [← mode_place done openings (.atom (.string (String.ofList s)))] at hrest
      have hshorter : rest.length < ('"' :: inner).length := by
        have hlength := hs.length_le
        simp only [List.length_cons] at hlength ⊢
        omega
      exact Completes.expr (Expr.string hs) (ih _ rest hshorter hrest)
  | @word w rest hne hw hdelimited =>
      obtain ⟨next, hnext, hrest⟩ := reads_cons hreads
      cases hnext
      rw [← mode_place done openings (.atom (Token.ofWord w))] at hrest
      have hshorter : rest.length < (w ++ rest).length := by
        have hpos := List.length_pos_iff.2 hne
        rw [List.length_append]
        omega
      exact Completes.expr (Expr.word hne hw hdelimited (denotes_iff.2 rfl))
        (ih _ rest hshorter hrest)
  | fault _ cause =>
      obtain ⟨next, hnext, _⟩ := reads_cons hreads
      cases hnext

/-- What the reader returns is derived from the text. -/
theorem completes_of_reads (r : Reading) (cs : List Char) (h : Reads r (scan (mode r) cs) out) :
    Completes r cs out := by
  induction hlength : cs.length using Nat.strongRecOn generalizing r cs with
  | ind n ih =>
      have hmode : mode r = .between ∨ mode r = .afterQuote := by
        unfold mode
        split <;> simp
      have hshorter : ∀ (r' : Reading) (cs' : List Char), cs'.length < cs.length →
          Reads r' (scan (mode r') cs') out → Completes r' cs' out :=
        fun r' cs' hlt hreads => ih cs'.length (hlength ▸ hlt) r' cs' hreads rfl
      rcases hmode with hmode | hmode <;> rw [hmode] at h
      · obtain ⟨cs', htrivia, hstarts⟩ := exists_starts cs
        have hrest := hstarts.completes h fun r' cs'' hlt =>
          hshorter r' cs'' (Nat.lt_of_lt_of_le hlt htrivia.length_le)
        exact hrest.trivia htrivia hmode
      · cases cs with
        | nil =>
            obtain ⟨next, hnext, _⟩ := reads_cons h
            cases hnext
        | cons c cs =>
            by_cases hc : (Text.isBlank c || c == ';' || c == ')') = true
            · rw [Token.scan_cons, Token.step, if_pos hc] at h
              obtain ⟨next, hnext, _⟩ := reads_cons h
              cases hnext
            · rw [Bool.not_eq_true] at hc
              rw [scan_afterQuote_cons hc] at h
              simp only [Bool.or_eq_false_iff, beq_eq_false_iff_ne] at hc
              exact (starts_cons hc.1.1 hc.1.2 cs).completes h hshorter

end Derived

/-! ## The reader accepts the grammar -/

theorem readAll_eq_ok_iff {text : String} {forms : List Term} :
    Term.readAll text = .ok forms ↔ Reads {} (Token.scan .between text.toList) forms := by
  rw [Term.readAll, Token.ofText, Reads]
  cases Term.Reading.steps {} (Token.scan .between text.toList) with
  | ok r => simp
  | error cause => simp

/-- The reader returns what is derived. -/
theorem reads_of_program {text : List Char} {forms : List Term} (h : Program text forms) :
    Reads {} (Token.scan .between text) forms := by
  obtain ⟨cs, htrivia, hforms⟩ := h
  refine ⟨⟨forms.reverse ++ [], []⟩, ?_, ?_⟩
  · rw [htrivia.scan_eq, hforms.steps_top []]
    rfl
  · simp [Term.Reading.forms]

/-- What the reader returns is derived. -/
theorem program_of_reads {text : List Char} {forms : List Term}
    (h : Reads {} (Token.scan .between text) forms) : Program text forms := by
  cases completes_of_reads {} text h with
  | top htrivia hforms => exact ⟨_, htrivia, hforms⟩

/-- The reader returns what the grammar derives, and nothing else. -/
theorem readAll_iff_derived {text : String} {forms : List Term} :
    Term.readAll text = .ok forms ↔ Program text.toList forms :=
  readAll_eq_ok_iff.trans ⟨program_of_reads, reads_of_program⟩

/-- The reader accepts exactly the texts of the grammar, with the forms that are derived for them,
and no text has two derivations with different forms. -/
theorem readAll_eq_ok_iff_program (text : String) :
    (∀ forms, Term.readAll text = .ok forms ↔ Program text.toList forms) ∧
      ∀ forms forms', Program text.toList forms → Program text.toList forms' → forms = forms' := by
  refine ⟨fun forms => readAll_iff_derived, ?_⟩
  intro forms forms' h h'
  have hread := readAll_iff_derived.2 h
  rw [readAll_iff_derived.2 h'] at hread
  cases hread
  rfl

/-- A text with trivia in every place that allows some: a comment in front, blanks inside the list
and a comment that the end of the text ends. -/
def spacedText : String :=
  "; call\n( f '(true)\"a\\\"b\" );"

def spacedForms : List Term :=
  [.list [.atom (.symbol ⟨"f"⟩), .quoted (.list [.atom (.bool true)]), .atom (.string "a\"b")]]

theorem readAll_eq_ok_iff_program_spaced :
    Program spacedText.toList spacedForms ∧
      (∀ forms, Program spacedText.toList forms → forms = spacedForms) ∧
      ∀ forms, ¬ Program "' f".toList forms := by
  have hspaced := readAll_eq_ok_iff_program spacedText
  have hform : Program spacedText.toList spacedForms :=
    (hspaced.1 spacedForms).1 (by decide +kernel)
  have hrefused : Term.readAll "' f" = .error .misplaced := by decide +kernel
  refine ⟨hform, fun forms h => hspaced.2 forms spacedForms h hform, ?_⟩
  intro forms h
  have hread := ((readAll_eq_ok_iff_program "' f").1 forms).2 h
  rw [hrefused] at hread
  cases hread

end Grammar
end RegisterLisp
