import RegisterLisp.Assembly.Line
import RegisterLisp.Proofs.Number.Immediate
import RegisterLisp.Proofs.Register.Sets
import RegisterLisp.Proofs.Text.Unquoting

/-!
# Words of assembly

A reader for operands.  An instruction is divided into words: a space ends a word, but not inside of
a string or of the brackets of a register set.  The first character of a word tells the kind of
operand.  Every operand is one word (`Operand.passes_render`) and is read back from it
(`Operand.ofWord?_render`).

A label is written as it is, so this asks for labels without blanks that start like labels
(`Label.IsPlain`).  Nothing is asked of strings and numbers.
-/

namespace RegisterLisp

open Text (IsFlat isBlank)

/-! ## Words -/

inductive WordMode
  | start
  | inside
  /-- In a register set. -/
  | brackets
  | string
  /-- Behind a backslash in a string. -/
  | escape
  deriving DecidableEq

namespace WordMode

/-- What a character leads to that does not end the word. -/
def next : WordMode → Char → WordMode
  | .start, c => if c = '"' then .string else if c = '[' then .brackets else .inside
  | .inside, _ => .inside
  | .brackets, c => if c = ']' then .inside else .brackets
  | .string, c => if c = '"' then .inside else if c = '\\' then .escape else .string
  | .escape, _ => .string

/-- Whether a space ends the word. -/
def isOpen : WordMode → Bool
  | .start | .inside => true
  | _ => false

/-- The words of a text.  `seen` holds the characters of the current word so far, last first. -/
def words : WordMode → List Char → List Char → List (List Char)
  | _, seen, [] => [seen.reverse]
  | mode, seen, c :: cs =>
      if c = ' ' ∧ mode.isOpen = true then seen.reverse :: words .start [] cs
      else words (mode.next c) (c :: seen) cs

/-- Characters that lead from one mode to another without ending the word. -/
inductive Passes : WordMode → List Char → WordMode → Prop
  | nil {mode : WordMode} : Passes mode [] mode
  | cons {mode last : WordMode} {c : Char} {cs : List Char}
      (hspace : c = ' ' → mode.isOpen = false) (h : Passes (mode.next c) cs last) :
      Passes mode (c :: cs) last

variable {mode middle last : WordMode} {c : Char} {w w' : List Char}

/-- Characters that do not end the word can be put together. -/
theorem Passes.append (h : Passes mode w middle) (h' : Passes middle w' last) :
    Passes mode (w ++ w') last := by
  induction h with
  | nil => exact h'
  | cons hspace _ ih => exact .cons hspace (ih h')

/-- Characters that change nothing. -/
theorem passes_of_next (h : ∀ c ∈ w, mode.next c = mode ∧ (c = ' ' → mode.isOpen = false)) :
    Passes mode w mode := by
  induction w with
  | nil => exact .nil
  | cons c w ih =>
      obtain ⟨hnext, hspace⟩ := h c List.mem_cons_self
      refine .cons hspace ?_
      rw [hnext]
      exact ih fun c' hc' => h c' (List.mem_cons_of_mem _ hc')

/-- Characters without a space that start neither a string nor a register set. -/
theorem passes_plain (hspace : ∀ c' ∈ c :: w, c' ≠ ' ') (hquote : c ≠ '"') (hbracket : c ≠ '[') :
    Passes .start (c :: w) .inside := by
  have hnext : WordMode.next .start c = .inside := by simp [next, hquote, hbracket]
  refine .cons (fun h => absurd h (hspace c List.mem_cons_self)) ?_
  rw [hnext]
  refine passes_of_next fun c' hc' => ⟨rfl, fun h => ?_⟩
  exact absurd h (hspace c' (List.mem_cons_of_mem _ hc'))

/-- What passes is taken into the current word. -/
theorem Passes.words_append (h : Passes mode w last) (seen rest : List Char) :
    words mode seen (w ++ rest) = words last (w.reverse ++ seen) rest := by
  induction h generalizing seen with
  | nil => rfl
  | @cons mode last c cs hspace _ ih =>
      have hgo : ¬ (c = ' ' ∧ mode.isOpen = true) := by
        rintro ⟨hc, hopen⟩
        rw [hspace hc] at hopen
        cases hopen
      rw [List.cons_append, words, if_neg hgo, ih]
      simp

/-- Words with a space between each two are divided again. -/
theorem words_intercalate {ws : List (List Char)} (hne : ws ≠ [])
    (h : ∀ w ∈ ws, Passes .start w .inside) : words .start [] ([' '].intercalate ws) = ws := by
  induction ws with
  | nil => exact absurd rfl hne
  | cons w ws ih =>
      have hw := (h w List.mem_cons_self).words_append []
      cases ws with
      | nil =>
          have hend := hw []
          rw [List.append_nil] at hend
          rw [List.intercalate_singleton, hend]
          simp [words]
      | cons w' ws =>
          have hrest := ih (by simp) fun w hmem => h w (List.mem_cons_of_mem _ hmem)
          rw [List.intercalate_cons_cons, List.append_assoc, hw, List.singleton_append, words,
            if_pos ⟨rfl, rfl⟩, hrest]
          simp

/-- A string in quotes is one word. -/
theorem passes_quote (text : String) : Passes .start (Text.quote text).toList .inside := by
  have hescaped : ∀ {c : Char} {cs : List Char}, Text.Escaped c cs → Passes .string cs .string := by
    rintro c _ (⟨-, hquote, hbackslash⟩ | ⟨-, -⟩ | -)
    · refine passes_of_next fun c' hc' => ?_
      rw [List.mem_singleton.1 hc']
      exact ⟨by simp [next, hquote, hbackslash], fun _ => rfl⟩
    · exact .cons (fun _ => rfl) (.cons (fun _ => rfl) .nil)
    · -- No digit of a code point ends the string.
      refine .cons (fun _ => rfl) (.cons (fun _ => rfl) (passes_of_next fun c' hc' => ?_))
      refine ⟨?_, fun _ => rfl⟩
      rcases List.mem_cons.1 hc' with rfl | hc'
      · rfl
      rcases List.mem_append.1 hc' with hc' | hc'
      · have hdigit := Text.isHexDigit_of_mem_toDigits hc'
        have hquote : c' ≠ '"' := hdigit.ne (by decide)
        have hbackslash : c' ≠ '\\' := hdigit.ne (by decide)
        simp [next, hquote, hbackslash]
      · rw [List.mem_singleton.1 hc']
        rfl
  have hinside : ∀ chars : List Char, Passes .string (chars.flatMap Text.escapeChar) .string := by
    intro chars
    induction chars with
    | nil => exact .nil
    | cons c chars ih => exact (hescaped (Text.escaped_escapeChar c)).append ih
  rw [Text.quote, String.toList_ofList, List.cons_append]
  exact .cons (fun h => absurd h (by decide))
    ((hinside _).append (.cons (fun h => absurd h (by decide)) .nil))

end WordMode

/-- Reading what was written gives it back, one after the other. -/
theorem mapM_map_eq_some {α β : Type} {f : α → β} {g : β → Option α} {xs : List α}
    (h : ∀ x ∈ xs, g (f x) = some x) : (xs.map f).mapM g = some xs := by
  induction xs with
  | nil => rfl
  | cons x xs ih =>
      have hrest := ih fun x' hx' => h x' (List.mem_cons_of_mem _ hx')
      rw [List.map_cons, List.mapM_cons, h x List.mem_cons_self, hrest]
      rfl

/-! ## Registers -/

namespace Reg

def ofName? (name : List Char) : Option Reg :=
  (Number.allDigits? (name.drop 1)).bind fun n => if h : n < 256 then some ⟨⟨n, h⟩⟩ else none

theorem toList_name (r : Reg) : r.name.toList = 'r' :: Nat.toDigits 10 r.index.val := by
  have hindex : (toString r.index.val).toList = Nat.toDigits 10 r.index.val := Nat.toList_repr
  rw [name, String.toList_append, hindex]
  rfl

/-- The name of a register tells which one it is. -/
theorem ofName?_name (r : Reg) : ofName? r.name.toList = some r := by
  rw [ofName?, toList_name, List.drop_one, List.tail_cons, Number.allDigits?_toDigits,
    Option.bind_some, dif_pos r.index.isLt]

/-- Nothing in the name of a register ends a word or a set. -/
theorem not_isBlank_name {r : Reg} {c : Char} (h : c ∈ r.name.toList) :
    isBlank c = false ∧ c ≠ ']' := by
  rw [toList_name] at h
  rcases List.mem_cons.1 h with rfl | h
  · decide
  · have hdigit : c.isDigit = true := Nat.isDigit_of_mem_toDigits (by norm_num) (by norm_num) h
    refine ⟨Text.not_isBlank_of_isDigit hdigit, ?_⟩
    rintro rfl
    exact absurd hdigit (by decide)

/-- The name of a register is one word. -/
theorem passes_name (r : Reg) : WordMode.Passes .start r.name.toList .inside := by
  have hspace : ∀ c ∈ r.name.toList, c ≠ ' ' := by
    rintro c hc rfl
    exact absurd (not_isBlank_name hc).1 (by decide)
  rw [toList_name] at hspace ⊢
  exact WordMode.passes_plain hspace (by decide) (by decide)

end Reg

namespace RegSet

def ofNames? (names : List Char) : Option RegSet :=
  if names.isEmpty then some empty
  else ((WordMode.words .start [] names).mapM Reg.ofName?).map ofList

theorem toList_render (s : RegSet) :
    s.render.toList = '[' :: ([' '].intercalate (s.toList.map fun r => r.name.toList) ++ [']']) := by
  rw [render, String.toList_append, String.toList_append, String.toList_intercalate, List.map_map]
  rfl

/-- The names between the brackets tell the set. -/
theorem ofNames?_toList (s : RegSet) :
    ofNames? ([' '].intercalate (s.toList.map fun r => r.name.toList)) = some s := by
  cases hs : s.toList with
  | nil =>
      -- Nothing between the brackets is no word, where dividing it would give an empty one.
      have hempty : empty = s := by rw [← ofList_toList s, hs]; rfl
      rw [← hempty]
      rfl
  | cons r rs =>
      have hwords : WordMode.words .start []
          ([' '].intercalate ((r :: rs).map fun r => r.name.toList))
            = (r :: rs).map fun r => r.name.toList := by
        refine WordMode.words_intercalate (by simp) fun w hw => ?_
        obtain ⟨r', -, rfl⟩ := List.mem_map.1 hw
        exact r'.passes_name
      have hread : ((r :: rs).map fun r => r.name.toList).mapM Reg.ofName? = some (r :: rs) :=
        mapM_map_eq_some fun r' _ => r'.ofName?_name
      have hne : ([' '].intercalate ((r :: rs).map fun r => r.name.toList)).isEmpty = false := by
        cases rs <;> simp [List.intercalate_cons_cons, Reg.toList_name]
      rw [ofNames?, hne, if_neg Bool.false_ne_true, hwords, hread, Option.map_some, ← hs,
        ofList_toList]

/-- Between the brackets there are names and spaces. -/
theorem ne_bracket_of_mem_names {rs : List Reg} {c : Char}
    (h : c ∈ [' '].intercalate (rs.map fun r => r.name.toList)) : c ≠ ']' := by
  rcases Text.of_mem_intercalate h with rfl | ⟨w, hw, hc⟩
  · decide
  · obtain ⟨r, -, rfl⟩ := List.mem_map.1 hw
    exact (Reg.not_isBlank_name hc).2

/-- A register set is one word, in spite of the spaces in it. -/
theorem passes_render (s : RegSet) : WordMode.Passes .start s.render.toList .inside := by
  rw [toList_render]
  have hinside : WordMode.Passes .brackets
      ([' '].intercalate (s.toList.map fun r => r.name.toList)) .brackets := by
    refine WordMode.passes_of_next fun c hc => ⟨?_, fun _ => rfl⟩
    have hbracket := ne_bracket_of_mem_names hc
    simp [WordMode.next, hbracket]
  exact .cons (fun h => absurd h (by decide))
    (hinside.append (.cons (fun h => absurd h (by decide)) .nil))

theorem isFlat_render (s : RegSet) : IsFlat s.render.toList := by
  rw [toList_render]
  have hopen : IsFlat ['['] := Text.isFlat_of_all rfl
  have hclose : IsFlat [']'] := Text.isFlat_of_all rfl
  have hinside : IsFlat ([' '].intercalate (s.toList.map fun r => r.name.toList)) := by
    refine Text.isFlat_intercalate (List.forall_mem_map.2 fun r _ => ?_)
    exact Text.isFlat_of_not_isBlank fun c hc => (Reg.not_isBlank_name hc).1
  exact Text.isFlat_append.2 ⟨hopen, Text.isFlat_append.2 ⟨hinside, hclose⟩⟩

end RegSet

/-! ## Operands -/

/-- A label that can be told from its text. -/
structure Label.IsPlain (l : Label) : Prop where
  head : ∃ c rest, l.text.toList = c :: rest ∧ (c = '.' ∨ c = '@')
  solid : ∀ c ∈ l.text.toList, isBlank c = false

theorem Label.IsPlain.ne_space {l : Label} (h : l.IsPlain) : ∀ c ∈ l.text.toList, c ≠ ' ' := by
  rintro c hc rfl
  exact absurd (h.solid ' ' hc) (by decide)

theorem Number.not_isBlank_of_isNumeric {c : Char} (h : Number.isNumeric c = true) :
    isBlank c = false := by
  rw [Number.isNumeric, Bool.or_eq_true] at h
  rcases h with hdigit | hmem
  · exact Text.not_isBlank_of_isDigit hdigit
  · have hall : ['.', '-', 'e', 'i', 'n', 'f', 'N', 'a'].all (fun c => !isBlank c) = true := rfl
    simpa using List.all_eq_true.1 hall c (by simpa using hmem)

namespace Operand

def ofWord? : List Char → Option Operand
  | [] => none
  | c :: cs =>
      if c = '"' then
        (Text.unescape .outside cs.dropLast).map fun s => .immediate (.string (String.ofList s))
      else if c = '[' then (RegSet.ofNames? cs.dropLast).map .registers
      else if c = 'r' then (Reg.ofName? (c :: cs)).map .register
      else if c = '.' ∨ c = '@' then some (.label ⟨String.ofList (c :: cs)⟩)
      else (Number.ofChars? (c :: cs)).map fun x => .immediate (.number x)

variable {o : Operand}

/-- A number written into an instruction is read back. -/
theorem ofWord?_number (x : Float) :
    ofWord? (Number.immediate x).toList = some (.immediate (.number x)) := by
  obtain ⟨⟨c, rest, htext, hc⟩, -⟩ := Number.immediate_text x
  have hread := Number.ofChars?_immediate x
  -- No other operand starts with a digit, a sign or the first letter of a name.
  have hne : ∀ d : Char, d.isDigit = false → d ∉ ['-', 'i', 'N'] → c ≠ d := by
    rintro d hdigit hname rfl
    rcases hc with hc | hc
    · rw [hdigit] at hc
      cases hc
    · exact hname hc
  rw [htext] at hread ⊢
  rw [ofWord?, if_neg (hne '"' rfl (by decide)), if_neg (hne '[' rfl (by decide)),
    if_neg (hne 'r' rfl (by decide)), if_neg, hread, Option.map_some]
  exact not_or.2 ⟨hne '.' rfl (by decide), hne '@' rfl (by decide)⟩

/-- A plain label is not taken for a number, a string or a register. -/
theorem ofWord?_label {l : Label} (h : l.IsPlain) :
    ofWord? l.text.toList = some (.label l) := by
  obtain ⟨c, rest, htext, hc⟩ := h.head
  have hlabel : (⟨String.ofList (c :: rest)⟩ : Label) = l := by
    rw [← htext, String.ofList_toList]
  have hne : ∀ d : Char, d ≠ '.' → d ≠ '@' → c ≠ d := by
    rintro d hpoint hat rfl
    exact hc.elim hpoint hat
  rw [htext, ofWord?, if_neg (hne '"' (by decide) (by decide)),
    if_neg (hne '[' (by decide) (by decide)), if_neg (hne 'r' (by decide) (by decide)), if_pos hc,
    hlabel]

/-- An operand is read back from its text. -/
theorem ofWord?_render (h : ∀ l, o = .label l → l.IsPlain) : ofWord? o.render.toList = some o := by
  cases o with
  | immediate i =>
      cases i with
      | number x => exact ofWord?_number x
      | string s =>
          have htext : (Text.quote s).toList = '"' :: (s.toList.flatMap Text.escapeChar ++ ['"']) := by
            simp [Text.quote]
          rw [render, Immediate.render, htext, ofWord?, if_pos rfl, List.dropLast_concat,
            Text.unescape_escapes, Option.map_some, String.ofList_toList]
  | register r =>
      have hread := r.ofName?_name
      rw [Reg.toList_name] at hread
      rw [render, Reg.toList_name, ofWord?, if_neg (by decide), if_neg (by decide), if_pos rfl, hread,
        Option.map_some]
  | registers set =>
      rw [render, RegSet.toList_render, ofWord?, if_neg (by decide), if_pos rfl, List.dropLast_concat,
        RegSet.ofNames?_toList, Option.map_some]
  | label l => exact ofWord?_label (h l rfl)

/-- The text of an operand is one word. -/
theorem passes_render (h : ∀ l, o = .label l → l.IsPlain) :
    WordMode.Passes .start o.render.toList .inside := by
  cases o with
  | immediate i =>
      cases i with
      | number x =>
          obtain ⟨⟨c, rest, htext, hc⟩, hall⟩ := Number.immediate_text x
          have hspace : ∀ c' ∈ c :: rest, c' ≠ ' ' := by
            rintro c' hc' rfl
            exact absurd (hall ' ' (htext ▸ hc')) (by decide)
          have hne : ∀ d : Char, Number.isNumeric d = false → c ≠ d := by
            rintro d hd rfl
            rw [hall c (by simp [htext])] at hd
            cases hd
          rw [render, Immediate.render, htext]
          exact WordMode.passes_plain hspace (hne '"' rfl) (hne '[' rfl)
      | string s => exact WordMode.passes_quote s
  | register r => exact r.passes_name
  | registers set => exact set.passes_render
  | label l =>
      obtain ⟨c, rest, htext, hc⟩ := (h l rfl).head
      have hspace := (h l rfl).ne_space
      rw [htext] at hspace
      rw [render, htext]
      refine WordMode.passes_plain hspace ?_ ?_
      · rintro rfl
        exact absurd hc (by decide)
      · rintro rfl
        exact absurd hc (by decide)

theorem isFlat_render (h : ∀ l, o = .label l → l.IsPlain) : IsFlat o.render.toList := by
  cases o with
  | immediate i =>
      cases i with
      | number x =>
          exact Text.isFlat_of_not_isBlank fun c hc =>
            Number.not_isBlank_of_isNumeric ((Number.immediate_text x).2 c hc)
      | string s => exact Text.isFlat_quote s
  | register r => exact Text.isFlat_of_not_isBlank fun c hc => (Reg.not_isBlank_name hc).1
  | registers set => exact set.isFlat_render
  | label l => exact Text.isFlat_of_not_isBlank (h l rfl).solid

end Operand

end RegisterLisp
