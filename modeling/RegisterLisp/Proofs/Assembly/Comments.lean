import RegisterLisp.Proofs.Lowering.CallingConvention
import RegisterLisp.Proofs.Lowering.Frame

/-!
# Comments stay comments

Any text can be written as a comment.  One with line feeds goes into a block, in which every end of
a comment is followed by the start of another one.  So whatever stars and slashes the text has, what
is written is nothing but comments and blanks, and no comment is left open.

* `Commentary` says what comments are: up to the end of the line, or up to the next end of a block,
  which does not share its star with the start of the block.
* `CommentMode.scan` reads a text one character at a time.  It ends outside of comments exactly if
  the text is commentary (`scan_eq_code_iff`).
* `commentLines` are the lines that are written for a text.  In the lines of a block the scanner is
  inside of a comment at the start of every line and at its end, whatever it does in between.
-/

namespace RegisterLisp

open Text (isBlank)

/-! ## Commentary -/

/-- Blanks and finished comments. -/
inductive Commentary : List Char → Prop
  | nil : Commentary []
  | blank {c : Char} {rest : List Char} (hc : isBlank c = true) (h : Commentary rest) :
      Commentary (c :: rest)
  | line {body rest : List Char} (hbody : '\n' ∉ body) (h : Commentary rest) :
      Commentary ('/' :: '/' :: (body ++ '\n' :: rest))
  | block {body rest : List Char} (hbody : ¬ ['*', '/'] <:+: body) (h : Commentary rest) :
      Commentary ('/' :: '*' :: (body ++ '*' :: '/' :: rest))

/-- An end of a block starts at the first of some characters or behind it. -/
theorem blockEnd_infix_cons {c : Char} {cs : List Char} :
    ['*', '/'] <:+: c :: cs ↔ (c = '*' ∧ cs.head? = some '/') ∨ ['*', '/'] <:+: cs := by
  rw [List.infix_cons_iff, List.cons_prefix_cons]
  cases cs with
  | nil => simp
  | cons d ds => simp [eq_comm]

namespace Commentary

variable {c : Char} {cs : List Char}

/-- A blank in front of commentary changes nothing. -/
theorem blank_iff (hc : isBlank c = true) : Commentary (c :: cs) ↔ Commentary cs := by
  refine ⟨fun h => ?_, .blank hc⟩
  cases h with
  | blank _ h => exact h
  | line _ _ => cases hc
  | block _ _ => cases hc

/-- Outside of comments there are blanks only. -/
theorem cons_cases (h : Commentary (c :: cs)) : c = '/' ∨ isBlank c = true := by
  cases h with
  | blank hc _ => exact .inr hc
  | line _ _ => exact .inl rfl
  | block _ _ => exact .inl rfl

/-- A slash stands in commentary only where a comment begins. -/
theorem slash_cases (h : Commentary ('/' :: c :: cs)) : c = '/' ∨ c = '*' := by
  cases h with
  | blank hc _ => cases hc
  | line _ _ => exact .inl rfl
  | block _ _ => exact .inr rfl

/-- A comment of one line is finished by the first line feed. -/
theorem line_iff : Commentary ('/' :: '/' :: cs) ↔
    ∃ body rest, cs = body ++ '\n' :: rest ∧ '\n' ∉ body ∧ Commentary rest := by
  constructor
  · intro h
    cases h with
    | blank hc _ => cases hc
    | line hbody h => exact ⟨_, _, rfl, hbody, h⟩
  · rintro ⟨body, rest, rfl, hbody, h⟩
    exact .line hbody h

/-- A block is finished by the first star that has a slash behind it. -/
theorem block_iff : Commentary ('/' :: '*' :: cs) ↔
    ∃ body rest, cs = body ++ '*' :: '/' :: rest ∧ ¬ ['*', '/'] <:+: body ∧ Commentary rest := by
  constructor
  · intro h
    cases h with
    | blank hc _ => cases hc
    | block hbody h => exact ⟨_, _, rfl, hbody, h⟩
  · rintro ⟨body, rest, rfl, hbody, h⟩
    exact .block hbody h

theorem line_feed_iff : Commentary ('/' :: '/' :: '\n' :: cs) ↔ Commentary cs := by
  refine ⟨fun h => ?_, fun h => line_iff.2 ⟨[], cs, rfl, by simp, h⟩⟩
  obtain ⟨body, rest, hcs, hbody, h⟩ := line_iff.1 h
  cases body with
  | nil =>
      cases hcs
      exact h
  | cons d body =>
      cases hcs
      exact absurd List.mem_cons_self hbody

/-- Inside of a line any other character may be dropped. -/
theorem line_cons_iff (hc : c ≠ '\n') :
    Commentary ('/' :: '/' :: c :: cs) ↔ Commentary ('/' :: '/' :: cs) := by
  rw [line_iff, line_iff]
  constructor
  · rintro ⟨body, rest, hcs, hbody, h⟩
    cases body with
    | nil =>
        cases hcs
        exact absurd rfl hc
    | cons d body =>
        cases hcs
        exact ⟨body, rest, rfl, fun hmem => hbody (List.mem_cons_of_mem _ hmem), h⟩
  · rintro ⟨body, rest, rfl, hbody, h⟩
    exact ⟨c :: body, rest, rfl, by simp [hbody, Ne.symm hc], h⟩

theorem block_end_iff : Commentary ('/' :: '*' :: '*' :: '/' :: cs) ↔ Commentary cs := by
  refine ⟨fun h => ?_, fun h => block_iff.2 ⟨[], cs, rfl, by simp, h⟩⟩
  obtain ⟨body, rest, hcs, hbody, h⟩ := block_iff.1 h
  rcases body with _ | ⟨d, _ | ⟨d', body⟩⟩
  · cases hcs
    exact h
  · cases hcs
  · cases hcs
    exact absurd (blockEnd_infix_cons.2 (.inl ⟨rfl, rfl⟩)) hbody

/-- A character that does not start an end of the block. -/
theorem block_cons_iff (hc : ¬ (c = '*' ∧ cs.head? = some '/')) :
    Commentary ('/' :: '*' :: c :: cs) ↔ Commentary ('/' :: '*' :: cs) := by
  rw [block_iff, block_iff]
  constructor
  · rintro ⟨body, rest, hcs, hbody, h⟩
    cases body with
    | nil =>
        cases hcs
        exact absurd ⟨rfl, rfl⟩ hc
    | cons d body =>
        cases hcs
        exact ⟨body, rest, rfl, fun hend => hbody (blockEnd_infix_cons.2 (.inr hend)), h⟩
  · rintro ⟨body, rest, rfl, hbody, h⟩
    refine ⟨c :: body, rest, rfl, ?_, h⟩
    rw [blockEnd_infix_cons, not_or]
    refine ⟨?_, hbody⟩
    cases body with
    | nil => simp
    | cons d body => simpa using hc

end Commentary

/-! ## Scanning for comments -/

inductive CommentMode
  | code
  /-- Behind a slash that is not in a comment. -/
  | slash
  | line
  | block
  /-- Behind a star in a block, other than the one that the block starts with. -/
  | star
  deriving DecidableEq

namespace CommentMode

/-- What a character leads to.  Outside of comments only blanks may stand. -/
def next : CommentMode → Char → Option CommentMode
  | .code, c => if c = '/' then some .slash else if isBlank c then some .code else none
  | .slash, c => if c = '/' then some .line else if c = '*' then some .block else none
  | .line, c => some (if c = '\n' then .code else .line)
  | .block, c => some (if c = '*' then .star else .block)
  | .star, c => some (if c = '/' then .code else if c = '*' then .star else .block)

def scan (mode : CommentMode) (cs : List Char) : Option CommentMode :=
  cs.foldlM next mode

/-- A text that leads to a mode from outside of comments. -/
def opening : CommentMode → List Char
  | .code => []
  | .slash => ['/']
  | .line => ['/', '/']
  | .block => ['/', '*']
  | .star => ['/', '*', '*']

variable {mode mode' : CommentMode} {c : Char} {cs ds : List Char}

/-! ### The scanner accepts commentary -/

/-- Of the texts that lead to a mode, only the empty one is finished. -/
theorem commentary_opening_iff : Commentary mode.opening ↔ mode = .code := by
  constructor
  · intro h
    cases mode with
    | code => rfl
    | slash =>
        cases h with
        | blank hc _ => cases hc
    | line =>
        obtain ⟨body, rest, hcs, -⟩ := Commentary.line_iff.1 h
        simp at hcs
    | block =>
        obtain ⟨body, rest, hcs, -⟩ := Commentary.block_iff.1 h
        simp at hcs
    | star =>
        obtain ⟨body, rest, hcs, -⟩ := Commentary.block_iff.1 h
        have hlength := congrArg List.length hcs
        simp at hlength
        omega
  · rintro rfl
    exact .nil

/-- One character more. -/
theorem commentary_cons_iff :
    Commentary (mode.opening ++ c :: cs) ↔
      ∃ mode', mode.next c = some mode' ∧ Commentary (mode'.opening ++ cs) := by
  cases mode with
  | code =>
      by_cases hslash : c = '/'
      · simp [opening, next, hslash]
      by_cases hc : isBlank c = true
      · simpa [opening, next, hslash, hc] using Commentary.blank_iff hc
      · simpa [opening, next, hslash, hc] using fun h =>
          (Commentary.cons_cases h).elim hslash hc
  | slash =>
      by_cases hslash : c = '/'
      · simp [opening, next, hslash]
      by_cases hstar : c = '*'
      · simp [opening, next, hstar]
      · simpa [opening, next, hslash, hstar] using fun h =>
          (Commentary.slash_cases h).elim hslash hstar
  | line =>
      by_cases hfeed : c = '\n'
      · subst hfeed
        simpa [opening, next] using Commentary.line_feed_iff
      · simpa [opening, next, hfeed] using Commentary.line_cons_iff hfeed
  | block =>
      by_cases hstar : c = '*'
      · simp [opening, next, hstar]
      · simpa [opening, next, hstar] using Commentary.block_cons_iff fun h => hstar h.1
  | star =>
      by_cases hslash : c = '/'
      · subst hslash
        simpa [opening, next] using Commentary.block_end_iff
      -- The star before `c` did not start an end of the block.
      have hbefore : Commentary ('/' :: '*' :: '*' :: c :: cs) ↔
          Commentary ('/' :: '*' :: c :: cs) :=
        Commentary.block_cons_iff fun h => hslash (by simpa using h.2)
      by_cases hstar : c = '*'
      · subst hstar
        simpa [opening, next] using hbefore
      · simpa [opening, next, hslash, hstar] using
          hbefore.trans (Commentary.block_cons_iff fun h => hstar h.1)

theorem scan_cons : scan mode (c :: cs) = (mode.next c).bind fun mode' => scan mode' cs :=
  List.foldlM_cons

/-- Texts are scanned one after the other. -/
theorem scan_append : scan mode (cs ++ ds) = (scan mode cs).bind fun mode' => scan mode' ds :=
  List.foldlM_append

/-- The scanner ends outside of comments exactly if the text is commentary. -/
theorem scan_eq_code_iff : scan mode cs = some .code ↔ Commentary (mode.opening ++ cs) := by
  induction cs generalizing mode with
  | nil =>
      rw [List.append_nil, commentary_opening_iff]
      exact Option.some_inj
  | cons c cs ih =>
      rw [scan_cons, commentary_cons_iff, Option.bind_eq_some_iff]
      simp only [ih]

instance (cs : List Char) : Decidable (Commentary cs) :=
  decidable_of_iff (scan .code cs = some .code) scan_eq_code_iff

example : Commentary "  // a /*\n/**/ /*/ */\t".toList ∧ ¬ Commentary "/* a */ */".toList ∧
    ¬ Commentary "// a".toList ∧ ¬ Commentary "/*/".toList := by
  decide +kernel

/-! ### Characters that lead on -/

/-- Texts that lead from a mode to another one follow each other. -/
theorem scan_append_of_eq (h : scan mode cs = some mode') :
    scan mode (cs ++ ds) = scan mode' ds := by
  rw [scan_append, h]
  rfl

/-- Characters that change nothing. -/
theorem scan_eq_self (h : ∀ c ∈ cs, mode.next c = some mode) : scan mode cs = some mode := by
  induction cs with
  | nil => rfl
  | cons c cs ih =>
      rw [scan_cons, h c List.mem_cons_self]
      exact ih fun c' hc' => h c' (List.mem_cons_of_mem _ hc')

/-- Indentation changes nothing outside of comments and in a block. -/
theorem scan_replicate (h : mode.next ' ' = some mode) (n : Nat) :
    scan mode (List.replicate n ' ') = some mode :=
  scan_eq_self fun c hc => by rw [List.eq_of_mem_replicate hc, h]

/-- Inside of a block, perhaps behind a star. -/
def InBlock (mode : CommentMode) : Prop :=
  mode = .block ∨ mode = .star

/-- A block is left by a slash behind a star only. -/
theorem next_inBlock (hmode : mode.InBlock) (hc : mode = .star → c ≠ '/') :
    mode.next c = some (if c = '*' then .star else .block) := by
  rcases hmode with rfl | rfl
  · rfl
  · simp [next, hc rfl]

/-- A text with its ends of comments escaped leads from inside of a block to inside of a block.  If
a star stands before it, it must not start with a slash. -/
theorem scan_escapeCommentEnd (hmode : mode.InBlock) (hstar : mode = .star → cs.head? ≠ some '/') :
    ∃ last, scan mode (Listing.escapeCommentEnd cs) = some last ∧ last.InBlock := by
  induction cs using Listing.escapeCommentEnd.induct generalizing mode with
  | case1 cs ih =>
      -- The end is taken, and the block that is started behind it has no star before its text.
      have hend : scan mode "*/ /*".toList = some .block := by
        rcases hmode with rfl | rfl <;> rfl
      obtain ⟨last, hscan, hlast⟩ := ih (.inl rfl) (fun h => by cases h)
      exact ⟨last, by rw [Listing.escapeCommentEnd, scan_append_of_eq hend, hscan], hlast⟩
  | case2 c cs hc ih =>
      have hnext := next_inBlock (c := c) hmode fun h heq => hstar h (by rw [heq]; rfl)
      rw [Listing.escapeCommentEnd.eq_2 c cs hc, scan_cons, hnext]
      split
      · rename_i hc'
        refine ih (.inr rfl) fun _ hhead => ?_
        obtain ⟨rest, rfl⟩ := List.head?_eq_some_iff.1 hhead
        exact hc rest hc' rfl
      · exact ih (.inl rfl) fun h => by cases h
  | case3 => exact ⟨mode, rfl, hmode⟩

/-! ### Lines -/

/-- A line is scanned by its statement: the indentation changes no mode that spaces keep. -/
theorem scan_line {s : Statement} (hindent : mode.next ' ' = some mode)
    (h : scan mode (s.render.toList ++ ['\n']) = some mode') (indent : Nat) :
    scan mode (Line.render ⟨indent, s⟩).toList = some mode' := by
  rw [Line.render, String.toList_append, String.toList_append, String.toList_ofList,
    List.append_assoc, scan_append_of_eq (scan_replicate hindent _)]
  exact h

/-- A comment of one line begins and ends on its line. -/
theorem scan_comment {text : String} (h : '\n' ∉ text.toList) (indent : Nat) :
    scan .code (Line.render ⟨indent, .comment text⟩).toList = some .code := by
  refine scan_line rfl ?_ indent
  have htext : scan .line text.toList = some .line :=
    scan_eq_self fun c hc => by simp [next, ne_of_mem_of_not_mem hc h]
  have hmark : scan .code "// ".toList = some .line := rfl
  rw [Statement.render, String.toList_append, List.append_assoc, scan_append_of_eq hmark,
    scan_append_of_eq htext]
  rfl

/-- However a line of a block reads, the block is still open behind it. -/
theorem scan_commentLine (cs : List Char) (indent : Nat) :
    scan .block (Line.render ⟨indent, .commentLine
      (String.ofList (Listing.escapeCommentEnd cs))⟩).toList = some .block := by
  refine scan_line rfl ?_ indent
  obtain ⟨last, hscan, hlast⟩ :
      ∃ last, scan .block (Listing.escapeCommentEnd cs) = some last ∧ last.InBlock :=
    scan_escapeCommentEnd (.inl rfl) (fun h => by cases h)
  rw [Statement.render, String.toList_ofList, scan_append_of_eq hscan]
  -- The line feed parts a star at the end of the line from a slash on the next one.
  rcases hlast with rfl | rfl <;> rfl

end CommentMode

/-! ## Lines of a comment -/

namespace Text

variable {c : Char} {cs : List Char}

/-- Trimming adds no characters. -/
theorem mem_of_mem_trimChars (h : c ∈ trimChars cs) : c ∈ cs := by
  have hback := (List.dropWhile_sublist _).mem (List.mem_reverse.1 h)
  exact (List.dropWhile_sublist _).mem (List.mem_reverse.1 hback)

/-- Dropping blanks in front loses nothing that is not blank. -/
theorem filter_dropWhile (cs : List Char) :
    ((cs.dropWhile isBlank).filter fun c => !isBlank c) = cs.filter fun c => !isBlank c := by
  induction cs with
  | nil => rfl
  | cons c cs ih =>
      cases hc : isBlank c with
      | true => simp [hc, ih]
      | false => simp [hc]

/-- Trimming takes nothing but blanks away. -/
theorem filter_trimChars (cs : List Char) :
    ((trimChars cs).filter fun c => !isBlank c) = cs.filter fun c => !isBlank c := by
  rw [trimChars, List.filter_reverse, filter_dropWhile, List.filter_reverse, List.reverse_reverse,
    filter_dropWhile]

/-- Dividing a text into lines takes nothing but line feeds away. -/
theorem filter_flatten_linesFrom (seen cs : List Char) :
    ((linesFrom seen cs).flatten.filter fun c => !isBlank c) =
      (seen.reverse ++ cs).filter fun c => !isBlank c := by
  induction cs generalizing seen with
  | nil =>
      rw [linesFrom]
      split
      · simp_all
      · simp
  | cons c cs ih =>
      rw [linesFrom]
      split
      · rename_i hc
        have hfeed : isBlank '\n' = true := rfl
        simp [ih, hc, hfeed]
      · simp [ih]

end Text

namespace Listing

/-- Escaping adds characters and takes none away. -/
theorem sublist_escapeCommentEnd (cs : List Char) : cs.Sublist (escapeCommentEnd cs) := by
  induction cs using escapeCommentEnd.induct with
  | case1 cs ih =>
      have hend : ['*', '/'].Sublist "*/ /*".toList := List.prefix_append ['*', '/'] _ |>.sublist
      exact hend.append ih
  | case2 c cs hc ih =>
      rw [escapeCommentEnd.eq_2 c cs hc]
      exact ih.cons_cons c
  | case3 => exact List.Sublist.refl _

/-- The statement for a line of a comment. -/
def blockLine (line : String) : Statement :=
  .commentLine (String.ofList (escapeCommentEnd (Text.trim line).toList))

def commentLines (indent : Nat) (text : String) : List Line :=
  if Text.hasLineFeed text then
    ⟨indent, .commentStart⟩ ::
      ((Text.lines text).map fun line => ⟨indent + 1, blockLine line⟩) ++ [⟨indent, .commentEnd⟩]
  else [⟨indent, .comment (Text.trim text)⟩]

def textOf (code : List Line) : List Char :=
  code.flatMap fun line => line.render.toList

theorem textOf_cons (line : Line) (code : List Line) :
    textOf (line :: code) = line.render.toList ++ textOf code :=
  List.flatMap_cons

theorem textOf_append (code code' : List Line) :
    textOf (code ++ code') = textOf code ++ textOf code' :=
  List.flatMap_append

/-- The characters of lines make up their text. -/
theorem ofList_textOf (code : List Line) :
    String.ofList (textOf code) = String.join (code.map Line.render) := by
  induction code with
  | nil => rfl
  | cons line code ih =>
      rw [textOf_cons, String.ofList_append, String.ofList_toList, ih, List.map_cons,
        String.join_cons]

open CommentMode (scan scan_line scan_comment scan_commentLine scan_append_of_eq scan_eq_code_iff)

/-- The lines of a block start and end inside of a comment. -/
theorem scan_blockLines (indent : Nat) (lines : List String) :
    scan .block (textOf (lines.map fun line => ⟨indent, blockLine line⟩)) = some .block := by
  induction lines with
  | nil => rfl
  | cons line lines ih =>
      rw [List.map_cons, textOf_cons, blockLine, scan_append_of_eq (scan_commentLine _ indent)]
      exact ih

/-- The text of a comment that goes on one line has no line feed. -/
theorem not_mem_trim {text : String} (h : Text.hasLineFeed text = false) :
    '\n' ∉ (Text.trim text).toList := by
  rw [Text.trim, String.toList_ofList]
  intro hmem
  have hfeed : Text.hasLineFeed text = true :=
    List.contains_iff_mem.2 (Text.mem_of_mem_trimChars hmem)
  rw [h] at hfeed
  cases hfeed

/-- Whatever the text, the lines of a comment are commentary and nothing else. -/
theorem commentary_commentLines (indent : Nat) (text : String) :
    Commentary (textOf (commentLines indent text)) := by
  have hstart : scan .code (Line.render ⟨indent, .commentStart⟩).toList = some .block :=
    scan_line rfl (by decide) indent
  have hend : scan .block (Line.render ⟨indent, .commentEnd⟩).toList = some .code :=
    scan_line rfl (by decide) indent
  suffices hscan : scan .code (textOf (commentLines indent text)) = some .code from
    scan_eq_code_iff.1 hscan
  rw [commentLines]
  split
  · rw [List.cons_append, textOf_cons, scan_append_of_eq hstart, textOf_append,
      scan_append_of_eq (scan_blockLines _ _), textOf_cons, scan_append_of_eq hend]
    rfl
  · rename_i hfeed
    rw [textOf_cons, scan_append_of_eq (scan_comment (not_mem_trim (by simpa using hfeed)) indent)]
    rfl

/-! ### Nothing of the text is lost -/

/-- A line shows its statement. -/
theorem sublist_render (line : Line) :
    line.statement.render.toList.Sublist line.render.toList := by
  rw [Line.render, String.toList_append, String.toList_append]
  exact (List.sublist_append_right _ _).trans (List.sublist_append_left _ _)

/-- All that is not blank in the lines of a block is found in the text, in order. -/
theorem filter_sublist_blockLines (indent : Nat) (lines : List (List Char)) :
    (lines.flatten.filter fun c => !isBlank c).Sublist
      (textOf ((lines.map String.ofList).map fun line => ⟨indent, blockLine line⟩)) := by
  induction lines with
  | nil => exact .slnil
  | cons line lines ih =>
      have hline : (line.filter fun c => !isBlank c).Sublist
          (Line.render ⟨indent, blockLine (String.ofList line)⟩).toList := by
        rw [← Text.filter_trimChars]
        refine List.filter_sublist.trans ((sublist_escapeCommentEnd _).trans ?_)
        refine List.Sublist.trans ?_ (sublist_render _)
        simp [blockLine, Statement.render, Text.trim]
      rw [List.flatten_cons, List.filter_append, List.map_cons, List.map_cons, textOf_cons]
      exact hline.append ih

/-- All of the text but its blanks is in the comment, in order. -/
theorem filter_sublist_commentLines (indent : Nat) (text : String) :
    (text.toList.filter fun c => !isBlank c).Sublist (textOf (commentLines indent text)) := by
  rw [commentLines]
  split
  · have hlines := Text.filter_flatten_linesFrom [] text.toList
    rw [List.reverse_nil, List.nil_append] at hlines
    rw [← hlines, List.cons_append, textOf_cons, textOf_append]
    refine (filter_sublist_blockLines (indent + 1) _).trans ?_
    exact (List.sublist_append_left _ _).trans (List.sublist_append_right _ _)
  · rw [← Text.filter_trimChars, textOf_cons]
    refine List.filter_sublist.trans (List.Sublist.trans ?_ (List.sublist_append_left _ _))
    refine List.Sublist.trans ?_ (sublist_render _)
    simpa [Statement.render, Text.trim] using List.sublist_append_right ['/', '/', ' '] _

/-! ## Writing a comment -/

/-- Lines were added, and nothing was cut off. -/
structure Added (l : Listing) (code : List Line) (l' : Listing) : Prop where
  lines : l'.lines = code.reverse ++ l.lines
  fragment : l'.fragment = l.fragment
  indent : l'.indent = l.indent

namespace Added

variable {l l₁ l' : Listing} {code code' : List Line}

theorem trans (h : Added l code l₁) (h' : Added l₁ code' l') : Added l (code ++ code') l' := by
  refine ⟨?_, h'.fragment.trans h.fragment, h'.indent.trans h.indent⟩
  rw [h'.lines, h.lines, List.reverse_append, List.append_assoc]

/-- A statement that is written adds one line. -/
theorem of_write {s : Statement} {u : Unit} (h : write s l = (.ok u, l')) :
    Added l [⟨l.indent, s⟩] l' := by
  obtain ⟨hlines, hindent, -⟩ := write_eq_ok h
  refine ⟨hlines, ?_, hindent⟩
  rw [write_apply, writeLine_apply] at h
  split at h
  · cases h
    rfl
  · split at h
    · cases h
      rfl
    · cases h

theorem of_forM {γ : Type} {s : γ → Statement} {xs : List γ} {u : PUnit}
    (h : (xs.forM fun x => write (s x)) l = (.ok u, l')) :
    Added l (xs.map fun x => ⟨l.indent, s x⟩) l' := by
  induction xs generalizing l with
  | nil =>
      cases h
      exact ⟨rfl, rfl, rfl⟩
  | cons x xs ih =>
      obtain ⟨_, l₁, hx, hxs⟩ := Steps.bind_eq_ok.1 h
      have hfirst := of_write hx
      have hrest := ih hxs
      rw [hfirst.indent] at hrest
      exact hfirst.trans hrest

/-- The indentation is taken back. -/
theorem of_indented {α : Type} {step : WriteM α} {a : α}
    (h : indented step l = (.ok a, l'))
    (hstep : ∀ l₁, step l.increaseIndent = (.ok a, l₁) → Added l.increaseIndent code l₁) :
    Added l code l' := by
  rcases hrun : step l.increaseIndent with ⟨r, l₁⟩
  rw [indented, hrun] at h
  cases h
  obtain ⟨hlines, hfragment, hindent⟩ := hstep l₁ hrun
  refine ⟨hlines, hfragment, ?_⟩
  change l₁.indent - 1 = l.indent
  rw [hindent]
  rfl

/-- A comment that is written adds its lines. -/
theorem of_comment {text : String} {u : Unit} (h : comment text l = (.ok u, l')) :
    Added l (commentLines l.indent text) l' := by
  unfold comment at h
  rw [commentLines]
  split at h
  · rename_i hfeed
    obtain ⟨_, l₁, hstart, h⟩ := Steps.bind_eq_ok.1 h
    obtain ⟨_, l₂, hlines, hend⟩ := Steps.bind_eq_ok.1 h
    have hstart := of_write hstart
    have hlines := of_indented hlines fun _ hrun => of_forM (s := blockLine) hrun
    have hend := of_write hend
    rw [hlines.indent, hstart.indent] at hend
    rw [show l₁.increaseIndent.indent = l.indent + 1 from congrArg (· + 1) hstart.indent] at hlines
    rw [if_pos hfeed]
    exact (hstart.trans hlines).trans hend
  · rename_i hfeed
    rw [if_neg hfeed]
    exact of_write h

/-- What was added is seen at the end of the text. -/
theorem text_eq (h : Added l code l') (hfragment : l.fragment = []) :
    l'.text = l.text ++ String.ofList (textOf code) := by
  have hempty : fragmentText [] = "" := by decide
  rw [text, text, h.fragment, hfragment, hempty, h.lines, ofList_textOf]
  simp

end Added

/-- Whatever text is written as a comment, the indentation is as before, also if the sink refuses
some of it; a sink without a limit takes all of it; and what is written by a comment that was not
refused is commentary, in which nothing of the text is missing but blanks. -/
theorem comments_stay_comments (text : String) (l : Listing) :
    (comment text l).2.indent = l.indent ∧ (l.room = none → (comment text l).1 = .ok ()) ∧
      ∀ l', l.fragment = [] → comment text l = (.ok (), l') →
        ∃ written : String, l'.text = l.text ++ written ∧ Commentary written.toList ∧
          (text.toList.filter fun c => !isBlank c).Sublist written.toList := by
  refine ⟨(keeps_comment text l).indent, ?_, ?_⟩
  · intro hroom
    obtain ⟨_, l', hrun, -⟩ := Unhindered.comment text l hroom
    rw [hrun]
  · intro l' hfragment hrun
    refine ⟨_, (Added.of_comment hrun).text_eq hfragment, ?_, ?_⟩
    · rw [String.toList_ofList]
      exact commentary_commentLines l.indent text
    · rw [String.toList_ofList]
      exact filter_sublist_commentLines l.indent text

/-- A text that ends comments, starts them and lets the two overlap. -/
def crossedStars : String := "a */*/ b *\n/ **//* c\n/*/"

theorem comments_stay_comments_crossedStars :
    ∃ l', comment crossedStars { indent := 1 } = (.ok (), l') ∧ l'.indent = 1 ∧
      l'.text = "        /*\n                a */ /**/ /* b *\n" ++
        "                / **/ /*/* c\n                /*/ /*\n        */\n" ∧
      Commentary l'.text.toList := by
  obtain ⟨hindent, hok, hwritten⟩ := comments_stay_comments crossedStars { indent := 1 }
  have hrun := Steps.eq_ok_of_fst (hok rfl)
  obtain ⟨written, htext, hcommentary, -⟩ := hwritten _ rfl hrun
  have hempty : text { indent := 1 } = "" := by decide +kernel
  rw [hempty, String.empty_append] at htext
  exact ⟨_, hrun, hindent, by decide +kernel, htext ▸ hcommentary⟩

end Listing
end RegisterLisp
