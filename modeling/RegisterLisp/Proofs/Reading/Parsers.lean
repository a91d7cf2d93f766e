import RegisterLisp.Proofs.Reading.Grammar
import RegisterLisp.Term.Parser

/-!
# The parsers and the reader

The parsers accept what the grammar derives: `Parser.expr` a form, `Parser.program` a whole text.
With the same fact about the reader, both return the same forms for every text
(`Parser.parse_eq_readAll`).

A parser is deterministic where the grammar is a relation, so from a derivation to a result it has
to be shown where the parser stops.  Trivia is the place where this matters, because the grammar
lets any part of it go by and the parser takes all of it: what it leaves is `Clear`, and a text has
only one such rest (`clear_unique`).
-/

namespace RegisterLisp
namespace Parser

open Grammar (Trivia Characters Expr Exprs Program)

variable {α β γ : Type}

/-! ## Combinators -/

section Combinators

variable {p p' : Parser α} {q q' : Parser β} {cs rest : List Char} {a : α} {b : β}

/-- One character, which satisfies the condition. -/
theorem satisfy_eq_some_iff {ok : Char → Bool} {c : Char} :
    satisfy ok cs = some (c, rest) ↔ cs = c :: rest ∧ ok c = true := by
  cases cs with
  | nil => simp [satisfy]
  | cons d cs =>
      by_cases hd : ok d = true
      · simp only [satisfy, if_pos hd, Option.some.injEq, Prod.mk.injEq, List.cons.injEq]
        constructor
        · rintro ⟨rfl, rfl⟩
          exact ⟨⟨rfl, rfl⟩, hd⟩
        · exact And.left
      · simp only [satisfy, if_neg hd, reduceCtorEq, List.cons.injEq, false_iff]
        rintro ⟨⟨rfl, _⟩, hc⟩
        exact hd hc

theorem just_eq_some_iff {c d : Char} : just c cs = some (d, rest) ↔ cs = c :: rest ∧ d = c := by
  rw [just, satisfy_eq_some_iff, beq_iff_eq]
  constructor
  · rintro ⟨rfl, rfl⟩
    exact ⟨rfl, rfl⟩
  · rintro ⟨rfl, rfl⟩
    exact ⟨rfl, rfl⟩

theorem noneOf_singleton (c : Char) : noneOf [c] = satisfy (· != c) := by
  simp [noneOf, bne, beq_eq_decide]

theorem map_eq_some_iff {f : α → β} :
    p.map f cs = some (b, rest) ↔ ∃ a, p cs = some (a, rest) ∧ f a = b := by
  simp only [map, Option.bind_eq_bind, Option.bind_eq_some_iff, Option.pure_def, Option.some.injEq,
    Prod.mk.injEq, Prod.exists]
  constructor
  · rintro ⟨a, rest, hp, hf, rfl⟩
    exact ⟨a, hp, hf⟩
  · rintro ⟨a, hp, hf⟩
    exact ⟨a, rest, hp, hf, rfl⟩

/-- The second parser starts where the first one has stopped. -/
theorem andThen_eq_some_iff {ab : α × β} :
    p.andThen q cs = some (ab, rest) ↔
      ∃ mid, p cs = some (ab.1, mid) ∧ q mid = some (ab.2, rest) := by
  obtain ⟨a, b⟩ := ab
  simp only [andThen, Option.bind_eq_bind, Option.bind_eq_some_iff, Option.pure_def,
    Option.some.injEq, Prod.mk.injEq, Prod.exists]
  constructor
  · rintro ⟨a, mid, hp, b, rest, hq, ⟨rfl, rfl⟩, rfl⟩
    exact ⟨mid, hp, hq⟩
  · rintro ⟨mid, hp, hq⟩
    exact ⟨a, mid, hp, b, rest, hq, ⟨rfl, rfl⟩, rfl⟩

theorem ignoreThen_eq_some_iff :
    p.ignoreThen q cs = some (b, rest) ↔
      ∃ a mid, p cs = some (a, mid) ∧ q mid = some (b, rest) := by
  rw [ignoreThen, map_eq_some_iff]
  constructor
  · rintro ⟨ab, hboth, rfl⟩
    obtain ⟨mid, hp, hq⟩ := andThen_eq_some_iff.1 hboth
    exact ⟨ab.1, mid, hp, hq⟩
  · rintro ⟨a, mid, hp, hq⟩
    exact ⟨(a, b), andThen_eq_some_iff.2 ⟨mid, hp, hq⟩, rfl⟩

theorem thenIgnore_eq_some_iff :
    p.thenIgnore q cs = some (a, rest) ↔
      ∃ b mid, p cs = some (a, mid) ∧ q mid = some (b, rest) := by
  rw [thenIgnore, map_eq_some_iff]
  constructor
  · rintro ⟨ab, hboth, rfl⟩
    obtain ⟨mid, hp, hq⟩ := andThen_eq_some_iff.1 hboth
    exact ⟨ab.2, mid, hp, hq⟩
  · rintro ⟨b, mid, hp, hq⟩
    exact ⟨(a, b), andThen_eq_some_iff.2 ⟨mid, hp, hq⟩, rfl⟩

/-- What stands between the delimiters is kept. -/
theorem delimitedBy_eq_some_iff {opening : Parser β} {closing : Parser γ} :
    p.delimitedBy opening closing cs = some (a, rest) ↔
      ∃ b before c behind, opening cs = some (b, before) ∧ p before = some (a, behind) ∧
        closing behind = some (c, rest) := by
  rw [delimitedBy, thenIgnore_eq_some_iff]
  simp only [ignoreThen_eq_some_iff]
  constructor
  · rintro ⟨c, behind, ⟨b, before, hopen, hp⟩, hclose⟩
    exact ⟨b, before, c, behind, hopen, hp, hclose⟩
  · rintro ⟨b, before, c, behind, hopen, hp, hclose⟩
    exact ⟨c, behind, ⟨b, before, hopen, hp⟩, hclose⟩

/-- Blanks on both sides are skipped. -/
theorem padded_eq_some_iff :
    p.padded cs = some (a, rest) ↔ ∃ mid, p (cs.dropWhile Text.isBlank) = some (a, mid) ∧
      mid.dropWhile Text.isBlank = rest := by
  simp only [padded, Option.bind_eq_bind, Option.bind_eq_some_iff, Option.pure_def,
    Option.some.injEq, Prod.mk.injEq, Prod.exists]
  constructor
  · rintro ⟨a, mid, hp, rfl, hrest⟩
    exact ⟨mid, hp, hrest⟩
  · rintro ⟨mid, hp, hrest⟩
    exact ⟨a, mid, hp, rfl, hrest⟩

/-- A result of a choice is the result of one of the parsers. -/
theorem exists_of_choice_eq_some {ps : List (Parser α)} (h : choice ps cs = some (a, rest)) :
    ∃ p ∈ ps, p cs = some (a, rest) := by
  induction ps with
  | nil => cases h
  | cons p ps ih =>
      rcases Option.or_eq_some_iff.1 h with hp | ⟨_, hps⟩
      · exact ⟨p, List.mem_cons_self, hp⟩
      · obtain ⟨p', hmem, hp'⟩ := ih hps
        exact ⟨p', List.mem_cons_of_mem p hmem, hp'⟩

/-- The first alternative that succeeds is taken. -/
theorem choice_cons_of_some {ps : List (Parser α)} (h : p cs = some (a, rest)) :
    choice (p :: ps) cs = some (a, rest) := by
  simp only [choice, h, Option.some_or]

/-- A failed alternative leaves no trace. -/
theorem choice_cons_of_none {ps : List (Parser α)} (h : p cs = none) :
    choice (p :: ps) cs = choice ps cs := by
  simp only [choice, h, Option.none_or]

/-- A parser fails where it has no result. -/
theorem eq_none_of_forall (h : ∀ a rest, p cs ≠ some (a, rest)) : p cs = none :=
  Option.eq_none_iff_forall_ne_some.2 fun result => h result.1 result.2

/-! ### Repetition -/

/-- How a repetition goes: on as long as something is consumed. -/
inductive Runs (p : Parser α) : List Char → List α → List Char → Prop
  | stop {cs : List Char} (h : ∀ a mid, p cs = some (a, mid) → cs.length ≤ mid.length) :
      Runs p cs [] cs
  | next {cs mid rest : List Char} {a : α} {as : List α} (ha : p cs = some (a, mid))
      (hmid : mid.length < cs.length) (has : Runs p mid as rest) : Runs p cs (a :: as) rest

theorem repeated_of_runs {as : List α} (h : Runs p cs as rest) :
    p.repeated cs = some (as, rest) := by
  induction h with
  | @stop cs h =>
      rw [repeated]
      cases hp : p cs with
      | none => rfl
      | some result => exact dif_neg (Nat.not_lt.2 (h result.1 result.2 hp))
  | next ha hmid _ ih =>
      rw [repeated, ha]
      simp [hmid, ih]

/-- A repetition always has a result. -/
theorem exists_runs (p : Parser α) (cs : List Char) : ∃ as rest, Runs p cs as rest := by
  induction hlength : cs.length using Nat.strongRecOn generalizing cs with
  | ind n ih =>
      by_cases hstop : ∀ a mid, p cs = some (a, mid) → cs.length ≤ mid.length
      · exact ⟨[], cs, Runs.stop hstop⟩
      · simp only [not_forall, Nat.not_le] at hstop
        obtain ⟨a, mid, ha, hmid⟩ := hstop
        obtain ⟨as, rest, has⟩ := ih mid.length (hlength ▸ hmid) mid rfl
        exact ⟨a :: as, rest, Runs.next ha hmid has⟩

/-- The result of a repetition is how it goes. -/
theorem repeated_eq_some_iff {as : List α} :
    p.repeated cs = some (as, rest) ↔ Runs p cs as rest := by
  refine ⟨fun h => ?_, repeated_of_runs⟩
  obtain ⟨as', rest', hruns⟩ := exists_runs p cs
  rw [repeated_of_runs hruns] at h
  cases h
  exact hruns

theorem Runs.stop_of_none (h : p cs = none) : Runs p cs [] cs :=
  Runs.stop fun a mid ha => by rw [h] at ha; cases ha

/-- A repetition of single characters goes up to the first that does not satisfy the condition. -/
theorem runs_satisfy (ok : Char → Bool) (cs : List Char) :
    Runs (satisfy ok) cs (cs.takeWhile ok) (cs.dropWhile ok) := by
  induction cs with
  | nil => exact Runs.stop_of_none rfl
  | cons c cs ih =>
      by_cases hc : ok c = true
      · rw [List.takeWhile_cons_of_pos hc, List.dropWhile_cons_of_pos hc]
        exact Runs.next (satisfy_eq_some_iff.2 ⟨rfl, hc⟩) (Nat.lt_succ_self _) ih
      · rw [List.takeWhile_cons_of_neg hc, List.dropWhile_cons_of_neg hc]
        exact Runs.stop_of_none (if_neg hc)

theorem repeated_satisfy (ok : Char → Bool) (cs : List Char) :
    (satisfy ok).repeated cs = some (cs.takeWhile ok, cs.dropWhile ok) :=
  repeated_of_runs (runs_satisfy ok cs)

/-! ### Congruence -/

theorem ignoreThen_congr (h : ∀ a mid, p cs = some (a, mid) → q mid = q' mid) :
    p.ignoreThen q cs = p.ignoreThen q' cs := by
  simp only [ignoreThen, map, andThen, Option.bind_eq_bind]
  cases hp : p cs with
  | none => rfl
  | some result => simp [h result.1 result.2 hp]

theorem thenIgnore_congr (h : p cs = p' cs) : p.thenIgnore q cs = p'.thenIgnore q cs := by
  simp only [thenIgnore, map, andThen, h]

/-- A parser between delimiters matters only behind the opening one. -/
theorem delimitedBy_congr {opening : Parser β} {closing : Parser γ}
    (h : ∀ b before, opening cs = some (b, before) → p before = p' before) :
    p.delimitedBy opening closing cs = p'.delimitedBy opening closing cs :=
  thenIgnore_congr (ignoreThen_congr h)

theorem map_congr {f : α → β} (h : p cs = p' cs) : p.map f cs = p'.map f cs := by
  simp only [map, h]

theorem Runs.congr {as : List α} (h : Runs p cs as rest)
    (heq : ∀ mid : List Char, mid.length ≤ cs.length → p mid = p' mid) : Runs p' cs as rest := by
  induction h with
  | stop hstop =>
      refine Runs.stop fun a mid ha => hstop a mid ?_
      rw [heq _ (Nat.le_refl _), ha]
  | next ha hmid _ ih =>
      refine Runs.next ?_ hmid (ih fun mid' hmid' => heq mid' ?_)
      · rw [← heq _ (Nat.le_refl _), ha]
      · exact Nat.le_trans hmid' (Nat.le_of_lt hmid)

/-- In a repetition only texts occur that are not longer than the first. -/
theorem repeated_congr (h : ∀ mid : List Char, mid.length ≤ cs.length → p mid = p' mid) :
    p.repeated cs = p'.repeated cs := by
  obtain ⟨as, rest, hruns⟩ := exists_runs p cs
  rw [repeated_of_runs hruns, repeated_of_runs (hruns.congr h)]

end Combinators

variable {cs cs' rest rest' : List Char}

/-! ## Blanks and comments -/

/-- A text without trivia in front. -/
def Clear (cs : List Char) : Prop :=
  ∀ c ∈ cs.head?, Text.isBlank c = false ∧ c ≠ ';'

theorem clear_cons {c : Char} (hblank : Text.isBlank c = false) (hcomment : c ≠ ';') :
    Clear (c :: cs) := by
  rintro d ⟨rfl⟩
  exact ⟨hblank, hcomment⟩

/-- A text that splits where a condition first fails is split there by the condition. -/
theorem span_append {ok : Char → Bool} {front : List Char} (hfront : ∀ c ∈ front, ok c = true)
    (hrest : ∀ c ∈ rest.head?, ok c = false) :
    (front ++ rest).takeWhile ok = front ∧ (front ++ rest).dropWhile ok = rest := by
  rw [List.takeWhile_append_of_pos hfront, List.dropWhile_append_of_pos hfront]
  cases rest with
  | nil => simp
  | cons c rest =>
      have hc : ¬ ok c = true := by simp [hrest c rfl]
      rw [List.takeWhile_cons_of_neg hc, List.dropWhile_cons_of_neg hc, List.append_nil]
      exact ⟨rfl, rfl⟩

/-- A comment ends at the first line feed. -/
theorem dropWhile_comment {body : List Char} (hbody : ∀ c ∈ body, c ≠ '\n')
    (hend : ∀ c ∈ rest.head?, c = '\n') : (body ++ rest).dropWhile (fun c => c ≠ '\n') = rest :=
  (span_append (by simpa using hbody) (by simpa using hend)).2

/-- Trivia can be taken up to one place only that has none in front. -/
theorem clear_unique (h : Trivia cs rest) (h' : Trivia cs rest') (hclear : Clear rest)
    (hclear' : Clear rest') : rest = rest' := by
  induction h with
  | nothing cs =>
      cases h' with
      | nothing => rfl
      | @blank c _ _ hc _ =>
          rw [(hclear c rfl).1] at hc
          cases hc
      | comment _ _ _ => exact absurd rfl (hclear ';' rfl).2
  | @blank c cs rest hc _ ih =>
      cases h' with
      | nothing =>
          rw [(hclear' c rfl).1] at hc
          cases hc
      | blank _ h' => exact ih h' hclear
      | comment _ _ _ => cases hc
  | @comment body cs rest hbody hend _ ih =>
      generalize htext : ';' :: (body ++ cs) = text at h'
      have hfront : ';' ∈ text.head? := by
        rw [← htext]
        rfl
      cases h' with
      | nothing => exact absurd rfl (hclear' _ hfront).2
      | blank hc _ =>
          cases htext
          cases hc
      | @comment body' cs' _ hbody' hend' h' =>
          -- Both comments are the same, since both end at the first line feed.
          have hsame := dropWhile_comment hbody hend
          rw [(List.cons.inj htext).2, dropWhile_comment hbody' hend'] at hsame
          subst hsame
          exact ih h' hclear

/-- Blanks are trivia. -/
theorem trivia_dropWhile (cs : List Char) : Trivia cs (cs.dropWhile Text.isBlank) := by
  induction cs with
  | nil => exact Trivia.nothing []
  | cons c cs ih =>
      by_cases hc : Text.isBlank c = true
      · rw [List.dropWhile_cons_of_pos hc]
        exact Trivia.blank hc ih
      · rw [List.dropWhile_cons_of_neg hc]
        exact Trivia.nothing _

/-- Where a comment stands and where it ends: behind the blanks that follow its line. -/
theorem comment_eq_some_iff {u : Unit} :
    comment cs = some (u, rest) ↔ ∃ line, cs.dropWhile Text.isBlank = ';' :: line ∧
      (line.dropWhile (· != '\n')).dropWhile Text.isBlank = rest := by
  simp only [comment, map_eq_some_iff, padded_eq_some_iff, andThen_eq_some_iff, just_eq_some_iff,
    noneOf_singleton, repeated_satisfy, Option.some.injEq, Prod.mk.injEq]
  constructor
  · rintro ⟨_, ⟨mid, ⟨line, ⟨hline, _⟩, _, rfl⟩, hrest⟩, _⟩
    exact ⟨line, hline, hrest⟩
  · rintro ⟨line, hline, hrest⟩
    exact ⟨(';', _), ⟨_, ⟨line, ⟨hline, rfl⟩, rfl, rfl⟩, hrest⟩, trivial⟩

/-- A comment with the blanks around it is trivia. -/
theorem trivia_of_comment {u : Unit} (h : comment cs = some (u, rest)) : Trivia cs rest := by
  obtain ⟨line, hline, rfl⟩ := comment_eq_some_iff.1 h
  obtain ⟨body, behind, rfl, hbody, hbehind⟩ :=
    Grammar.exists_split (· != '\n') line
  rw [(span_append hbody hbehind).2]
  have hcomment : Trivia (';' :: (body ++ behind)) (behind.dropWhile Text.isBlank) :=
    Trivia.comment (by simpa using hbody) (by simpa using hbehind) (trivia_dropWhile behind)
  rw [← hline] at hcomment
  exact (trivia_dropWhile cs).trans hcomment

/-- A comment has at least its semicolon. -/
theorem length_lt_of_comment {u : Unit} (h : comment cs = some (u, rest)) :
    rest.length < cs.length := by
  obtain ⟨line, hline, rfl⟩ := comment_eq_some_iff.1 h
  have hblanks := (trivia_dropWhile cs).length_le
  have hbody : (line.dropWhile (· != '\n')).length ≤ line.length :=
    (List.dropWhile_suffix _).length_le
  have hbehind := (trivia_dropWhile (line.dropWhile (· != '\n'))).length_le
  rw [hline, List.length_cons] at hblanks
  omega

/-- Where comments end, only blanks stand in front of the next thing. -/
theorem clear_dropWhile (h : ∀ u mid, comment cs = some (u, mid) → cs.length ≤ mid.length) :
    Clear (cs.dropWhile Text.isBlank) := by
  intro c hc
  have hhead := List.head?_dropWhile_not Text.isBlank cs
  rw [Option.mem_def.1 hc] at hhead
  refine ⟨by simpa using hhead, ?_⟩
  rintro rfl
  obtain ⟨line, hline⟩ := List.head?_eq_some_iff.1 hc
  have hcomment : comment cs = some ((), _) := comment_eq_some_iff.2 ⟨line, hline, rfl⟩
  exact Nat.not_lt.2 (h () _ hcomment) (length_lt_of_comment hcomment)

/-- Comments in sequence are trivia, and behind them only blanks are left of it. -/
theorem runs_comment {us : List Unit} (h : Runs comment cs us rest) :
    Trivia cs rest ∧ Clear (rest.dropWhile Text.isBlank) := by
  induction h with
  | stop hstop => exact ⟨Trivia.nothing _, clear_dropWhile hstop⟩
  | next hcomment _ _ ih => exact ⟨(trivia_of_comment hcomment).trans ih.1, ih.2⟩

/-- The parser takes all trivia that there is. -/
theorem exists_trivia (cs : List Char) : ∃ rest, trivia cs = some ((), rest) ∧ Trivia cs rest ∧
    Clear rest := by
  obtain ⟨us, mid, hruns⟩ := exists_runs comment (cs.dropWhile Text.isBlank)
  obtain ⟨htrivia, hclear⟩ := runs_comment hruns
  refine ⟨mid.dropWhile Text.isBlank, ?_, ?_, hclear⟩
  · exact map_eq_some_iff.2 ⟨us, padded_eq_some_iff.2 ⟨mid, repeated_of_runs hruns, rfl⟩, rfl⟩
  · exact (trivia_dropWhile cs).trans (htrivia.trans (trivia_dropWhile mid))

/-- Trivia ends at the one place that has none in front. -/
theorem trivia_eq_some_iff {u : Unit} :
    trivia cs = some (u, rest) ↔ Trivia cs rest ∧ Clear rest := by
  obtain ⟨rest', hparse, htrivia', hclear'⟩ := exists_trivia cs
  constructor
  · intro h
    rw [hparse] at h
    cases h
    exact ⟨htrivia', hclear'⟩
  · rintro ⟨htrivia, hclear⟩
    rw [hparse, clear_unique htrivia htrivia' hclear hclear']

/-! ## Strings -/

/-- The alternatives of a table of escapes give what the table says of the letter in front. -/
theorem choice_escapes_eq_some_iff {table : List (Char × Char)} {c : Char} :
    choice (table.map fun (letter, meaning) => (just letter).map fun _ => meaning) cs =
        some (c, rest) ↔
      ∃ letter, cs = letter :: rest ∧
        (table.find? fun (l, _) => l == letter).map Prod.snd = some c := by
  induction table with
  | nil => simp [choice]
  | cons entry table ih =>
      obtain ⟨l, meaning⟩ := entry
      by_cases hl : ∃ behind, cs = l :: behind
      · obtain ⟨behind, rfl⟩ := hl
        have hfirst : ((just l).map fun _ => meaning) (l :: behind) = some (meaning, behind) :=
          map_eq_some_iff.2 ⟨l, just_eq_some_iff.2 ⟨rfl, rfl⟩, rfl⟩
        rw [List.map_cons, choice_cons_of_some hfirst]
        simp only [Option.some.injEq, Prod.mk.injEq, List.cons.injEq]
        constructor
        · rintro ⟨rfl, rfl⟩
          exact ⟨l, ⟨rfl, rfl⟩, by simp⟩
        · rintro ⟨_, ⟨rfl, rfl⟩, hfind⟩
          exact ⟨by simpa using hfind, rfl⟩
      · have hfirst : ((just l).map fun _ => meaning) cs = none := by
          refine eq_none_of_forall fun a behind h => hl ?_
          obtain ⟨_, hjust, _⟩ := map_eq_some_iff.1 h
          exact ⟨behind, (just_eq_some_iff.1 hjust).1⟩
        rw [List.map_cons, choice_cons_of_none hfirst, ih]
        refine exists_congr fun letter => and_congr_right fun hcs => ?_
        have hne : (l == letter) = false := by
          refine beq_eq_false_iff_ne.2 fun heq => hl ⟨rest, ?_⟩
          rw [hcs, heq]
        simp [hne]

/-- An escape is a backslash and a letter that has a meaning. -/
theorem charEscape_eq_some_iff {c : Char} :
    charEscape cs = some (c, rest) ↔
      ∃ letter, cs = '\\' :: letter :: rest ∧ Grammar.Escape letter c := by
  simp only [charEscape, ignoreThen_eq_some_iff, just_eq_some_iff, choice_escapes_eq_some_iff,
    ← Grammar.escape_iff]
  constructor
  · rintro ⟨_, _, ⟨rfl, _⟩, letter, rfl, hletter⟩
    exact ⟨letter, rfl, hletter⟩
  · rintro ⟨letter, rfl, hletter⟩
    exact ⟨'\\', letter :: rest, ⟨rfl, rfl⟩, letter, rfl, hletter⟩

/-- One character between quotes. -/
theorem stringChar_eq_some_iff {c : Char} :
    choice [noneOf ['"', '\\'], charEscape] cs = some (c, rest) ↔
      (cs = c :: rest ∧ c ≠ '"' ∧ c ≠ '\\') ∨
        ∃ letter, cs = '\\' :: letter :: rest ∧ Grammar.Escape letter c := by
  have hplain : noneOf ['"', '\\'] cs = some (c, rest) ↔ cs = c :: rest ∧ c ≠ '"' ∧ c ≠ '\\' := by
    simp [noneOf, satisfy_eq_some_iff]
  constructor
  · intro h
    obtain ⟨p, hmem, hp⟩ := exists_of_choice_eq_some h
    simp only [List.mem_cons, List.not_mem_nil, or_false] at hmem
    rcases hmem with rfl | rfl
    · exact Or.inl (hplain.1 hp)
    · exact Or.inr (charEscape_eq_some_iff.1 hp)
  · rintro (h | ⟨letter, rfl, hletter⟩)
    · exact choice_cons_of_some (hplain.2 h)
    · rw [choice_cons_of_none rfl]
      exact choice_cons_of_some (charEscape_eq_some_iff.2 ⟨letter, rfl, hletter⟩)

/-- Characters that were parsed are the inside of a string. -/
theorem characters_of_runs {s : List Char}
    (h : Runs (choice [noneOf ['"', '\\'], charEscape]) cs s rest) : Characters cs s rest := by
  induction h with
  | stop _ => exact Characters.nothing _
  | next hc _ _ ih =>
      rcases stringChar_eq_some_iff.1 hc with ⟨rfl, hquote, hbackslash⟩ | ⟨letter, rfl, hletter⟩
      · exact Characters.plain hquote hbackslash ih
      · exact Characters.escape hletter ih

/-- The inside of a string is parsed up to a place where no character of a string stands. -/
theorem runs_of_characters {s : List Char} (h : Characters cs s rest)
    (hstop : choice [noneOf ['"', '\\'], charEscape] rest = none) :
    Runs (choice [noneOf ['"', '\\'], charEscape]) cs s rest := by
  induction h with
  | nothing cs => exact Runs.stop_of_none hstop
  | plain hquote hbackslash _ ih =>
      exact Runs.next (stringChar_eq_some_iff.2 (Or.inl ⟨rfl, hquote, hbackslash⟩))
        (Nat.lt_succ_self _) (ih hstop)
  | escape hletter _ ih =>
      exact Runs.next (stringChar_eq_some_iff.2 (Or.inr ⟨_, rfl, hletter⟩))
        (Nat.lt_succ_of_lt (Nat.lt_succ_self _)) (ih hstop)

/-- A string is derived as it is parsed. -/
theorem string_eq_some_iff {t : Term} :
    string cs = some (t, rest) ↔ ∃ inner s, cs = '"' :: inner ∧
      Characters inner s ('"' :: rest) ∧ t = .atom (.string (String.ofList s)) := by
  simp only [string, map_eq_some_iff, delimitedBy_eq_some_iff, just_eq_some_iff,
    repeated_eq_some_iff]
  constructor
  · rintro ⟨s, ⟨_, inner, _, behind, ⟨rfl, _⟩, hruns, rfl, _⟩, rfl⟩
    exact ⟨inner, s, rfl, characters_of_runs hruns, rfl⟩
  · rintro ⟨inner, s, rfl, hcharacters, rfl⟩
    have hruns := runs_of_characters hcharacters rfl
    exact ⟨s, ⟨'"', inner, '"', '"' :: rest, ⟨rfl, rfl⟩, hruns, rfl, rfl⟩, rfl⟩

/-! ## Bare words -/

/-- A character belongs to a word if it does not break one. -/
theorem isWordChar_iff {c : Char} : isWordChar c = true ↔ ¬ Grammar.Breaks c := by
  simp [isWordChar, Grammar.Breaks, delimiters]

theorem isWordChar_eq_false_iff {c : Char} : isWordChar c = false ↔ Grammar.Breaks c := by
  rw [← Bool.not_eq_true, isWordChar_iff, Classical.not_not]

/-- A word is as long as it can be. -/
theorem bare_eq_some_iff {t : Term} :
    bare cs = some (t, rest) ↔ ∃ w, w ≠ [] ∧ (∀ c ∈ w, ¬ Grammar.Breaks c) ∧
      (∀ c ∈ rest.head?, Grammar.Breaks c) ∧ cs = w ++ rest ∧ t = .atom (Token.ofWord w) := by
  simp only [bare, map_eq_some_iff, andThen_eq_some_iff, satisfy_eq_some_iff, repeated_satisfy,
    Option.some.injEq, Prod.mk.injEq, Prod.exists, ← isWordChar_eq_false_iff,
    Bool.not_eq_false]
  constructor
  · rintro ⟨c, _, ⟨mid, ⟨rfl, hc⟩, rfl, rfl⟩, rfl⟩
    obtain ⟨w, rest, rfl, hw, hrest⟩ := Grammar.exists_split isWordChar mid
    rw [(span_append hw hrest).1, (span_append hw hrest).2]
    refine ⟨c :: w, List.cons_ne_nil c w, ?_, hrest, rfl, rfl⟩
    simpa [hc] using hw
  · rintro ⟨w, hne, hw, hrest, rfl, rfl⟩
    obtain ⟨c, w, rfl⟩ := List.exists_cons_of_ne_nil hne
    have hc : isWordChar c = true := hw c List.mem_cons_self
    obtain ⟨htake, hdrop⟩ := span_append (fun d hd => hw d (List.mem_cons_of_mem c hd)) hrest
    exact ⟨c, w, ⟨w ++ rest, ⟨rfl, hc⟩, htake, hdrop⟩, rfl⟩

/-! ## Forms -/

/-- All trivia around a thing is skipped. -/
theorem paddedBy_trivia_eq_some_iff {p : Parser α} {a : α} :
    p.paddedBy trivia cs = some (a, rest) ↔ ∃ before behind, Trivia cs before ∧ Clear before ∧
      p before = some (a, behind) ∧ Trivia behind rest ∧ Clear rest := by
  simp only [paddedBy, delimitedBy_eq_some_iff, trivia_eq_some_iff]
  constructor
  · rintro ⟨_, before, _, behind, ⟨hbefore, hclear⟩, hp, hbehind⟩
    exact ⟨before, behind, hbefore, hclear, hp, hbehind⟩
  · rintro ⟨before, behind, hbefore, hclear, hp, hbehind⟩
    exact ⟨(), before, (), behind, ⟨hbefore, hclear⟩, hp, hbehind⟩

/-- The forms inside a form are shorter than it. -/
theorem exprFrom_congr {p p' : Parser Term}
    (h : ∀ mid : List Char, mid.length < cs.length → p mid = p' mid) :
    exprFrom p cs = exprFrom p' cs := by
  have hitems : ∀ mid : List Char, mid.length < cs.length →
      p.paddedBy trivia mid = p'.paddedBy trivia mid := by
    intro mid hmid
    refine delimitedBy_congr fun _ before hbefore => h before ?_
    exact Nat.lt_of_le_of_lt (trivia_eq_some_iff.1 hbefore).1.length_le hmid
  have hlist : ∀ b before, (just '(').andThen trivia cs = some (b, before) →
      (p.paddedBy trivia).repeated before = (p'.paddedBy trivia).repeated before := by
    intro _ before hopen
    obtain ⟨inside, hparen, htrivia⟩ := andThen_eq_some_iff.1 hopen
    have hbefore := (trivia_eq_some_iff.1 htrivia).1.length_le
    have hinside : inside.length < cs.length := by
      rw [(just_eq_some_iff.1 hparen).1]
      exact Nat.lt_succ_self _
    exact repeated_congr fun mid hmid =>
      hitems mid (Nat.lt_of_le_of_lt (Nat.le_trans hmid hbefore) hinside)
  have hquoted : ∀ c mid, just '\'' cs = some (c, mid) → p mid = p' mid := by
    intro _ mid hquote
    refine h mid ?_
    rw [(just_eq_some_iff.1 hquote).1]
    exact Nat.lt_succ_self _
  simp only [exprFrom, choice, map_congr (delimitedBy_congr hlist),
    map_congr (ignoreThen_congr hquoted)]

/-- The parser for forms calls itself on all forms inside. -/
theorem expr_eq (cs : List Char) : expr cs = exprFrom expr cs := by
  rw [expr, recursive]
  exact exprFrom_congr fun mid hmid => dif_pos hmid

/-- A form may not begin with a closing parenthesis, and not at the end of the text. -/
theorem expr_eq_none (h : ∀ c ∈ cs.head?, c = ')') : expr cs = none := by
  rw [expr_eq]
  cases cs with
  | nil => rfl
  | cons c cs =>
      obtain rfl := h c rfl
      rfl

/-- A form does not begin with trivia. -/
theorem clear_of_expr {t : Term} (h : Expr cs t rest) : Clear cs := by
  cases h with
  | list _ _ => exact clear_cons (by decide) (by decide)
  | quoted _ => exact clear_cons (by decide) (by decide)
  | string _ => exact clear_cons (by decide) (by decide)
  | @word w _ _ hne hw _ _ =>
      obtain ⟨c, w, rfl⟩ := List.exists_cons_of_ne_nil hne
      have hc := hw c List.mem_cons_self
      simp only [Grammar.Breaks, not_or, Bool.not_eq_true] at hc
      exact clear_cons hc.1 fun hsemicolon => hc.2 (by simp [hsemicolon])

theorem clear_of_exprs {ts : List Term} (h : Exprs cs ts rest) (hrest : Clear rest) : Clear cs := by
  cases h with
  | nothing _ => exact hrest
  | cons hfirst _ _ => exact clear_of_expr hfirst

/-! ### From a result to a derivation -/

/-- The repetition of forms, once the forms it may meet are known to be derived. -/
theorem exprs_of_runs {n : Nat} {ts : List Term}
    (ih : ∀ {cs rest : List Char} {t : Term}, cs.length < n → expr cs = some (t, rest) →
      Expr cs t rest)
    (h : Runs (expr.paddedBy trivia) cs ts rest) (hlength : cs.length < n) :
    ∃ cs', Trivia cs cs' ∧ Exprs cs' ts rest := by
  induction h with
  | stop _ => exact ⟨_, Trivia.nothing _, Exprs.nothing _⟩
  | next ha hmid _ ihruns =>
      obtain ⟨before, behind, hbefore, _, hexpr, hbehind, _⟩ := paddedBy_trivia_eq_some_iff.1 ha
      obtain ⟨cs', htrivia, hexprs⟩ := ihruns (Nat.lt_trans hmid hlength)
      have hfirst := ih (Nat.lt_of_le_of_lt hbefore.length_le hlength) hexpr
      exact ⟨before, hbefore, Exprs.cons hfirst (hbehind.trans htrivia) hexprs⟩

/-- What is parsed is derived.  The induction is on the length of the text, since the items of a
list are parsed by the same parser on shorter ones. -/
theorem derived_of_expr {t : Term} (h : expr cs = some (t, rest)) : Expr cs t rest := by
  induction hn : cs.length using Nat.strongRecOn generalizing cs t rest with
  | ind n ih =>
      have hshorter : ∀ {cs rest : List Char} {t : Term}, cs.length < n →
          expr cs = some (t, rest) → Expr cs t rest := fun hlt hexpr => ih _ hlt hexpr rfl
      rw [expr_eq] at h
      obtain ⟨p, hmem, hp⟩ := exists_of_choice_eq_some h
      simp only [List.mem_cons, List.not_mem_nil, or_false] at hmem
      rcases hmem with rfl | rfl | rfl | rfl
      · obtain ⟨ts, hlist, rfl⟩ := map_eq_some_iff.1 hp
        obtain ⟨_, before, _, behind, hopen, hitems, hclose⟩ := delimitedBy_eq_some_iff.1 hlist
        obtain ⟨inside, hparen, htrivia⟩ := andThen_eq_some_iff.1 hopen
        obtain ⟨rfl, _⟩ := just_eq_some_iff.1 hparen
        obtain ⟨rfl, _⟩ := just_eq_some_iff.1 hclose
        have hbefore := (trivia_eq_some_iff.1 htrivia).1
        have hlt : before.length < n := by
          rw [← hn]
          exact Nat.lt_succ_of_le hbefore.length_le
        obtain ⟨cs', htrivia', hexprs⟩ :=
          exprs_of_runs hshorter (repeated_eq_some_iff.1 hitems) hlt
        exact Expr.list (hbefore.trans htrivia') hexprs
      · obtain ⟨inner, hquoted, rfl⟩ := map_eq_some_iff.1 hp
        obtain ⟨_, mid, hquote, hinner⟩ := ignoreThen_eq_some_iff.1 hquoted
        obtain ⟨rfl, _⟩ := just_eq_some_iff.1 hquote
        exact Expr.quoted (hshorter (hn ▸ Nat.lt_succ_self _) hinner)
      · obtain ⟨inner, s, rfl, hcharacters, rfl⟩ := string_eq_some_iff.1 hp
        exact Expr.string hcharacters
      · obtain ⟨w, hne, hw, hrest, rfl, rfl⟩ := bare_eq_some_iff.1 hp
        exact Expr.word hne hw hrest (Grammar.denotes_iff.2 rfl)

/-! ### From a derivation to a result -/

/-- A text with a word in front does not begin with a delimiter. -/
theorem notMem_delimiters_of_append {w behind : List Char} {c : Char} (hne : w ≠ [])
    (hw : ∀ d ∈ w, ¬ Grammar.Breaks d) (hcs : w ++ rest = c :: behind) :
    c ∉ delimiters := by
  obtain ⟨d, w, rfl⟩ := List.exists_cons_of_ne_nil hne
  obtain ⟨rfl, _⟩ := List.cons.inj hcs
  exact fun hmem => hw d List.mem_cons_self (Or.inr hmem)

mutual

/-- What is derived is parsed: the first alternative that may succeed is the right one. -/
theorem expr_of_derived : ∀ {cs rest : List Char} {t : Term}, Expr cs t rest →
    expr cs = some (t, rest)
  | _, rest, _, @Expr.list cs cs' _ ts htrivia hitems => by
      have hstop : Clear (')' :: rest) := clear_cons (by decide) (by decide)
      have hruns := runs_of_derived hitems hstop fun c hc => (Option.some.inj hc).symm
      have hopen : (just '(').andThen trivia ('(' :: cs) = some (('(', ()), cs') :=
        andThen_eq_some_iff.2 ⟨cs, just_eq_some_iff.2 ⟨rfl, rfl⟩,
          trivia_eq_some_iff.2 ⟨htrivia, clear_of_exprs hitems hstop⟩⟩
      rw [expr_eq]
      exact choice_cons_of_some (map_eq_some_iff.2 ⟨ts, delimitedBy_eq_some_iff.2
        ⟨_, cs', ')', _, hopen, repeated_of_runs hruns, just_eq_some_iff.2 ⟨rfl, rfl⟩⟩, rfl⟩)
  | _, rest, _, @Expr.quoted cs _ t h => by
      have hinner : (just '\'').ignoreThen expr ('\'' :: cs) = some (t, rest) :=
        ignoreThen_eq_some_iff.2 ⟨'\'', cs, just_eq_some_iff.2 ⟨rfl, rfl⟩, expr_of_derived h⟩
      rw [expr_eq, exprFrom, choice_cons_of_none rfl]
      exact choice_cons_of_some (map_eq_some_iff.2 ⟨t, hinner, rfl⟩)
  | _, rest, _, @Expr.string cs s _ h => by
      rw [expr_eq, exprFrom, choice_cons_of_none rfl, choice_cons_of_none rfl]
      exact choice_cons_of_some (string_eq_some_iff.2 ⟨cs, s, rfl, h, rfl⟩)
  | _, rest, _, @Expr.word w _ a hne hw hrest ha => by
      rw [expr_eq, exprFrom, choice_cons_of_none, choice_cons_of_none, choice_cons_of_none]
      · exact choice_cons_of_some (bare_eq_some_iff.2
          ⟨w, hne, hw, hrest, rfl, congrArg Term.atom (Grammar.denotes_iff.1 ha).symm⟩)
      -- The other three begin with a character that does not belong to a word.
      · refine eq_none_of_forall fun t' rest' h => ?_
        obtain ⟨_, _, hcs, _⟩ := string_eq_some_iff.1 h
        exact notMem_delimiters_of_append hne hw hcs (by decide)
      · refine eq_none_of_forall fun t' rest' h => ?_
        obtain ⟨_, hquoted, _⟩ := map_eq_some_iff.1 h
        obtain ⟨_, _, hquote, _⟩ := ignoreThen_eq_some_iff.1 hquoted
        exact notMem_delimiters_of_append hne hw (just_eq_some_iff.1 hquote).1 (by decide)
      · refine eq_none_of_forall fun t' rest' h => ?_
        obtain ⟨_, hlist, _⟩ := map_eq_some_iff.1 h
        obtain ⟨_, _, _, _, hopen, _⟩ := delimitedBy_eq_some_iff.1 hlist
        obtain ⟨_, hparen, _⟩ := andThen_eq_some_iff.1 hopen
        exact notMem_delimiters_of_append hne hw (just_eq_some_iff.1 hparen).1 (by decide)

/-- Forms are repeated up to a closing parenthesis or the end of the text. -/
theorem runs_of_derived : ∀ {cs rest : List Char} {ts : List Term}, Exprs cs ts rest →
    Clear rest → (∀ c ∈ rest.head?, c = ')') → Runs (expr.paddedBy trivia) cs ts rest
  | _, _, _, .nothing cs, hclear, hend => by
      refine Runs.stop_of_none (eq_none_of_forall fun t rest h => ?_)
      obtain ⟨before, behind, hbefore, hclear', hexpr, _⟩ := paddedBy_trivia_eq_some_iff.1 h
      rw [← clear_unique (Trivia.nothing cs) hbefore hclear hclear', expr_eq_none hend] at hexpr
      cases hexpr
  | _, rest, _, @Exprs.cons cs cs' cs'' _ t ts h htrivia hrest, hclear, hend => by
      have hitem : expr.paddedBy trivia cs = some (t, cs'') :=
        paddedBy_trivia_eq_some_iff.2 ⟨cs, cs', Trivia.nothing cs, clear_of_expr h,
          expr_of_derived h, htrivia, clear_of_exprs hrest hclear⟩
      exact Runs.next hitem (Nat.lt_of_le_of_lt htrivia.length_le h.length_lt)
        (runs_of_derived hrest hclear hend)

end

theorem expr_eq_some_iff {t : Term} : expr cs = some (t, rest) ↔ Expr cs t rest :=
  ⟨derived_of_expr, expr_of_derived⟩

/-! ## Programs -/

/-- The parser for programs takes the whole text or fails. -/
theorem program_eq_some_iff {forms : List Term} :
    program cs = some (forms, rest) ↔ Program cs forms ∧ rest = [] := by
  have hatEnd : ∀ {u : Unit} {mid : List Char},
      atEnd mid = some (u, rest) ↔ mid = [] ∧ rest = [] := by
    intro u mid
    cases mid <;> simp [atEnd, eq_comm]
  simp only [program, thenIgnore_eq_some_iff, ignoreThen_eq_some_iff, trivia_eq_some_iff,
    repeated_eq_some_iff, hatEnd]
  constructor
  · rintro ⟨_, _, ⟨_, before, ⟨hbefore, _⟩, hruns⟩, rfl, rfl⟩
    obtain ⟨cs', htrivia, hexprs⟩ :=
      exprs_of_runs (fun _ => derived_of_expr) hruns (Nat.lt_succ_self _)
    exact ⟨⟨cs', hbefore.trans htrivia, hexprs⟩, rfl⟩
  · rintro ⟨⟨before, hbefore, hexprs⟩, rfl⟩
    have hend : Clear [] := by simp [Clear]
    exact ⟨(), [], ⟨(), before, ⟨hbefore, clear_of_exprs hexprs hend⟩,
      runs_of_derived hexprs hend (by simp)⟩, rfl, rfl⟩

/-- The parsers and the reader agree on every text: both return the same forms, or none. -/
theorem parse_eq_readAll (text : String) : parse text = (Term.readAll text).toOption := by
  have hparse : ∀ forms, parse text = some forms ↔ Term.readAll text = .ok forms := by
    intro forms
    rw [Grammar.readAll_iff_derived, parse, Option.map_eq_some_iff]
    constructor
    · rintro ⟨⟨_, rest⟩, hprogram, rfl⟩
      exact (program_eq_some_iff.1 hprogram).1
    · intro h
      exact ⟨(forms, []), program_eq_some_iff.2 ⟨h, rfl⟩, rfl⟩
  cases hread : Term.readAll text with
  | ok forms => exact (hparse forms).2 hread
  | error cause =>
      refine Option.eq_none_iff_forall_ne_some.2 fun forms h => ?_
      rw [(hparse forms).1 h] at hread
      cases hread

end Parser
end RegisterLisp
