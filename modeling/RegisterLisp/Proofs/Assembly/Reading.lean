import RegisterLisp.Assembly.Listing
import RegisterLisp.Proofs.Assembly.Words

/-!
# Lines of assembly read back

The first character behind the indentation of a line tells comments, labels and instructions apart,
and an instruction is read word by word.  Every line that can be told from its text is read back
(`Line.ofText?_text`) and has no blank but the space (`Line.isFlat_text`); so the lines of a text
are the lines that were written to it (`Text.lines_join`).
-/

namespace RegisterLisp

open Text (IsFlat)

/-! ## Instructions -/

namespace Opcode

/-- The instructions that are not given by their name. -/
def known : List Opcode :=
  [.load, .move, .negate, .jump, .jumpIfZero, .jumpIfNonzero, .push, .pop, .call, .ret] ++
    Operator.all.flatMap fun op => [.apply op, .applyConstant op, .applyUnary op]

def ofName? (name : List Char) : Option Opcode :=
  known.find? fun opcode => opcode.name == String.ofList name

/-- The table is complete. -/
theorem mem_known {opcode : Opcode} (h : ∀ name, opcode ≠ .named name) : opcode ∈ known := by
  have hall : ∀ op : Operator, op ∈ Operator.all := by
    intro op
    cases op <;> decide
  cases opcode with
  | named name => exact absurd rfl (h name)
  | apply op | applyConstant op | applyUnary op =>
      rw [known, List.mem_append, List.mem_flatMap]
      exact .inr ⟨op, hall op, by simp⟩
  | _ => simp [known]

/-- No two of these instructions have the same name. -/
theorem ofName?_name {opcode : Opcode} (h : opcode ∈ known) :
    ofName? opcode.name.toList = some opcode := by
  have htable : ∀ o ∈ known, ofName? o.name.toList = some o := by decide +kernel
  exact htable opcode h

/-- Names of instructions are made of small letters. -/
theorem exists_name {opcode : Opcode} (h : opcode ∈ known) :
    ∃ c rest, opcode.name.toList = c :: rest ∧ ∀ c' ∈ c :: rest, c'.isLower = true := by
  have htable : ∀ o ∈ known, o.name.toList ≠ [] ∧ o.name.toList.all Char.isLower = true := by
    decide +kernel
  obtain ⟨hne, hall⟩ := htable opcode h
  cases hname : opcode.name.toList with
  | nil => exact absurd hname hne
  | cons c rest =>
      rw [hname] at hall
      exact ⟨c, rest, rfl, List.all_eq_true.1 hall⟩

end Opcode

/-! ## Lines -/

namespace Statement

/-- Reads a comment, a label or an instruction. -/
def ofText? : List Char → Option Statement
  | [] => none
  | c :: cs =>
      if c = '/' then some (.comment (String.ofList (cs.drop 2)))
      else if c = '.' ∨ c = '@' then some (.label ⟨String.ofList (c :: cs).dropLast⟩)
      else
        match WordMode.words .start [] (c :: cs) with
        | [] => none
        | name :: operands =>
            (Opcode.ofName? name).bind fun opcode =>
              (operands.mapM Operand.ofWord?).map (.instruction opcode)

/-- A statement that can be told from its text.  Comments over several lines and instructions given
by their name are not among them. -/
inductive IsPlain : Statement → Prop
  | comment {text : String} (h : IsFlat text.toList) : IsPlain (.comment text)
  | label {l : Label} (h : l.IsPlain) : IsPlain (.label l)
  | instruction {opcode : Opcode} {operands : List Operand} (hopcode : opcode ∈ Opcode.known)
      (hlabels : ∀ l, .label l ∈ operands → l.IsPlain) : IsPlain (.instruction opcode operands)

variable {s : Statement}

theorem toList_comment (text : String) :
    (comment text).render.toList = '/' :: '/' :: ' ' :: text.toList := by
  rw [render, String.toList_append]
  rfl

theorem toList_label (l : Label) : (label l).render.toList = l.text.toList ++ [':'] := by
  rw [render, String.toList_append]
  rfl

/-- An instruction is its name and its operands with single spaces between them. -/
theorem toList_instruction (opcode : Opcode) (operands : List Operand) :
    (instruction opcode operands).render.toList =
      [' '].intercalate (opcode.name.toList :: operands.map fun o => o.render.toList) := by
  rw [render, String.toList_intercalate, List.map_cons, List.map_map]
  rfl

/-- A mnemonic is one word. -/
theorem passes_name {opcode : Opcode} (h : opcode ∈ Opcode.known) :
    WordMode.Passes .start opcode.name.toList .inside := by
  obtain ⟨c, rest, hname, hlower⟩ := Opcode.exists_name h
  have hc := hlower c List.mem_cons_self
  rw [hname]
  exact WordMode.passes_plain (fun c' hc' => Text.ne_of_isLower (hlower c' hc') rfl)
    (Text.ne_of_isLower hc rfl) (Text.ne_of_isLower hc rfl)

/-- The words of an instruction are its mnemonic and its operands. -/
theorem words_instruction {opcode : Opcode} {operands : List Operand}
    (hopcode : opcode ∈ Opcode.known) (hlabels : ∀ l, .label l ∈ operands → l.IsPlain) :
    WordMode.words .start [] (instruction opcode operands).render.toList =
      opcode.name.toList :: operands.map fun o => o.render.toList := by
  rw [toList_instruction]
  refine WordMode.words_intercalate (by simp) fun w hw => ?_
  rcases List.mem_cons.1 hw with rfl | hw
  · exact passes_name hopcode
  · obtain ⟨o, ho, rfl⟩ := List.mem_map.1 hw
    exact Operand.passes_render fun l hl => hlabels l (hl ▸ ho)

/-- The mnemonic stands first. -/
theorem exists_instruction {opcode : Opcode} (h : opcode ∈ Opcode.known)
    (operands : List Operand) :
    ∃ c rest, (instruction opcode operands).render.toList = c :: rest ∧ c.isLower = true := by
  obtain ⟨c, rest, hname, hlower⟩ := Opcode.exists_name h
  have hc := hlower c (by simp)
  rw [toList_instruction, hname]
  cases operands with
  | nil => exact ⟨c, rest, List.intercalate_singleton, hc⟩
  | cons o operands => exact ⟨c, _, by rw [List.map_cons, List.intercalate_cons_cons]; rfl, hc⟩

/-- A statement is read back from its text. -/
theorem ofText?_render (h : s.IsPlain) : ofText? s.render.toList = some s := by
  cases h with
  | @comment text _ =>
      rw [toList_comment, ofText?, if_pos rfl]
      simp
  | @label l h =>
      obtain ⟨c, rest, htext, hc⟩ := h.head
      have hslash : c ≠ '/' := by
        rintro rfl
        exact absurd hc (by decide)
      have hlast : (c :: (rest ++ [':'])).dropLast = l.text.toList := by
        rw [← List.cons_append, List.dropLast_concat, htext]
      rw [toList_label, htext, List.cons_append, ofText?, if_neg hslash, if_pos hc, hlast,
        String.ofList_toList]
  | @instruction opcode operands hopcode hlabels =>
      have hwords := words_instruction hopcode hlabels
      have hread : (operands.map fun o => o.render.toList).mapM Operand.ofWord? = some operands :=
        mapM_map_eq_some fun o ho => Operand.ofWord?_render fun l hl => hlabels l (hl ▸ ho)
      obtain ⟨c, rest, htext, hc⟩ := exists_instruction hopcode operands
      have hslash : c ≠ '/' := Text.ne_of_isLower hc rfl
      have hlabel : ¬ (c = '.' ∨ c = '@') :=
        not_or.2 ⟨Text.ne_of_isLower hc rfl, Text.ne_of_isLower hc rfl⟩
      rw [htext] at hwords ⊢
      rw [ofText?, if_neg hslash, if_neg hlabel, hwords]
      simp only [Opcode.ofName?_name hopcode, Option.bind_some, hread, Option.map_some]

/-- No statement starts with a space, so what is in front of it is its indentation. -/
theorem IsPlain.head_ne_space (h : s.IsPlain) : ∃ c rest, s.render.toList = c :: rest ∧ c ≠ ' ' := by
  cases h with
  | comment _ => exact ⟨'/', _, toList_comment _, by decide⟩
  | label h =>
      obtain ⟨c, rest, htext, hc⟩ := h.head
      refine ⟨c, rest ++ [':'], by rw [toList_label, htext, List.cons_append], ?_⟩
      exact h.ne_space c (by simp [htext])
  | instruction hopcode _ =>
      obtain ⟨c, rest, htext, hc⟩ := exists_instruction hopcode _
      exact ⟨c, rest, htext, Text.ne_of_isLower hc rfl⟩

/-- A statement that can be told from its text has no line feed in it. -/
theorem IsPlain.isFlat (h : s.IsPlain) : IsFlat s.render.toList := by
  cases h with
  | comment h =>
      have hmark : IsFlat ['/', '/', ' '] := Text.isFlat_of_all rfl
      rw [toList_comment]
      exact Text.isFlat_append.2 ⟨hmark, h⟩
  | label h =>
      rw [toList_label]
      exact Text.isFlat_append.2 ⟨Text.isFlat_of_not_isBlank h.solid, Text.isFlat_of_all rfl⟩
  | @instruction opcode operands hopcode hlabels =>
      rw [toList_instruction]
      refine Text.isFlat_intercalate fun w hw => ?_
      rcases List.mem_cons.1 hw with rfl | hw
      · obtain ⟨c, rest, hname, hlower⟩ := Opcode.exists_name hopcode
        rw [hname]
        exact Text.isFlat_of_not_isBlank fun c' hc' => Text.not_isBlank_of_isLower (hlower c' hc')
      · obtain ⟨o, ho, rfl⟩ := List.mem_map.1 hw
        exact Operand.isFlat_render fun l hl => hlabels l (hl ▸ ho)

end Statement

namespace Line

variable {line : Line}

def text (l : Line) : String :=
  String.ofList (List.replicate (l.indent * indentWidth) ' ') ++ l.statement.render

def ofText? (text : String) : Option Line :=
  let depth := (text.toList.takeWhile (· == ' ')).length
  (Statement.ofText? (text.toList.dropWhile (· == ' '))).map fun s => ⟨depth / indentWidth, s⟩

theorem toList_text (line : Line) : line.text.toList =
    List.replicate (line.indent * indentWidth) ' ' ++ line.statement.render.toList := by
  rw [text, String.toList_append, String.toList_ofList]

/-- A line is read back from its text. -/
theorem ofText?_text (h : line.statement.IsPlain) : ofText? line.text = some line := by
  obtain ⟨c, rest, hstatement, hc⟩ := h.head_ne_space
  have hspaces : ∀ c' ∈ List.replicate (line.indent * indentWidth) ' ', (c' == ' ') = true := by
    intro c' hc'
    rw [List.eq_of_mem_replicate hc']
    rfl
  -- The indentation ends where the statement starts.
  have hstop : (c == ' ') = false := beq_eq_false_iff_ne.2 hc
  have htake : (line.text.toList.takeWhile (· == ' ')).length = line.indent * indentWidth := by
    rw [toList_text, hstatement, List.takeWhile_append_of_pos hspaces, List.takeWhile_cons, hstop]
    simp
  have hdrop : line.text.toList.dropWhile (· == ' ') = line.statement.render.toList := by
    rw [toList_text, hstatement, List.dropWhile_append_of_pos hspaces, List.dropWhile_cons, hstop]
    rfl
  rw [ofText?, htake, hdrop, Statement.ofText?_render h, Nat.mul_div_cancel _ (by decide)]
  rfl

theorem isFlat_text (h : line.statement.IsPlain) : IsFlat line.text.toList := by
  rw [toList_text]
  refine Text.isFlat_append.2 ⟨?_, h.isFlat⟩
  exact fun c hc _ => List.eq_of_mem_replicate hc

end Line

namespace Text

/-- A line ends at its line feed. -/
theorem linesFrom_append {cs : List Char} (h : '\n' ∉ cs) (seen rest : List Char) :
    linesFrom seen (cs ++ '\n' :: rest) = (seen.reverse ++ cs) :: linesFrom [] rest := by
  induction cs generalizing seen with
  | nil => simp [linesFrom]
  | cons c cs ih =>
      have hc : c ≠ '\n' := fun heq => h (heq ▸ List.mem_cons_self)
      have hrest := ih (fun hmem => h (List.mem_cons_of_mem _ hmem)) (c :: seen)
      rw [List.cons_append, linesFrom, if_neg hc, hrest]
      simp

/-- The lines of a listing are the lines that were written. -/
theorem lines_join {code : List Line} (h : ∀ line ∈ code, IsFlat line.text.toList) :
    lines (String.join (code.map Line.render)) = code.map Line.text := by
  have hfrom : linesFrom [] (String.join (code.map Line.render)).toList
      = code.map fun line => line.text.toList := by
    induction code with
    | nil => rfl
    | cons line code ih =>
        have hline : line.render.toList = line.text.toList ++ ['\n'] := by
          rw [Line.render, String.toList_append]
          rfl
        have hfeed : '\n' ∉ line.text.toList := by
          intro hmem
          exact absurd (h line List.mem_cons_self '\n' hmem rfl) (by decide)
        have hrest := ih fun line' hmem => h line' (List.mem_cons_of_mem _ hmem)
        rw [List.map_cons, String.join_cons, String.toList_append, hline, List.append_assoc,
          List.singleton_append, linesFrom_append hfeed, hrest]
        rfl
  rw [lines, hfrom, List.map_map]
  exact List.map_congr_left fun line _ => String.ofList_toList

end Text
end RegisterLisp
