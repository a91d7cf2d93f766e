import RegisterLisp.Proofs.Lowering.Emission
import RegisterLisp.Proofs.Lowering.Pieces

/-!
# Functions and jumps in code

The code of a function starts at its label and ends with its return, and functions may stand inside
each other's code.  So the functions around a line can be read off the lines before it:
`functionsAround`.

A jump lands if its target stands behind it in the same function.  Code is put together piece by
piece, and a jump may be written before the line that it goes to; `Lands pending code` says that the
jumps of a piece land inside the piece or go to a label that is still pending.  For this the pieces
have to be `Balanced`, with every function that starts in them ending in them.
-/

namespace RegisterLisp

/-! ## Labels and jumps -/

namespace Opcode

/-- Instructions that may go on at a label. -/
def isJump : Opcode → Bool
  | .jump | .jumpIfZero | .jumpIfNonzero => true
  | _ => false

/-- Straight code does not jump. -/
theorem isJump_of_isPlain {opcode : Opcode} (h : opcode.isPlain = true) :
    opcode.isJump = false := by
  cases opcode <;> first | rfl | cases h

end Opcode

namespace Label

/-- The labels of functions: global labels, and those of function literals. -/
def isFunction (l : Label) : Bool :=
  !l.isLocal || "@_anonfunc_".toList.isPrefixOf l.text.toList

/-- Every global label is that of a function. -/
theorem isFunction_of_not_isLocal {l : Label} (h : l.isLocal = false) : l.isFunction = true := by
  rw [isFunction, h]
  rfl

/-- The text of a local label, from which its stem can be told. -/
theorem toList_ofLocal (stem : String) (n : Nat) :
    (ofLocal stem n).text.toList =
      '@' :: '_' :: ((spell stem).toList ++ '_' :: (Nat.toDigits 10 n ++ ['_', '_'])) := by
  simp [ofLocal, Nat.repr]

/-- The label of a literal is that of a function. -/
theorem isFunction_anonfunc (n : Nat) : (ofLocal "anonfunc" n).isFunction = true := by
  rw [isFunction, isLocal_ofLocal, toList_ofLocal]
  rfl

/-- The label behind a literal is none. -/
theorem isFunction_skip (n : Nat) : (ofLocal "skip" n).isFunction = false := by
  rw [isFunction, isLocal_ofLocal, toList_ofLocal]
  rfl

theorem isFunction_failure (n : Nat) : (ofLocal "failure" n).isFunction = false := by
  rw [isFunction, isLocal_ofLocal, toList_ofLocal]
  rfl

theorem isFunction_success (n : Nat) : (ofLocal "success" n).isFunction = false := by
  rw [isFunction, isLocal_ofLocal, toList_ofLocal]
  rfl

end Label

def Defines (code : List Line) (l : Label) : Prop :=
  ∃ line ∈ code, line.statement = .label l

def Mentions (code : List Line) (l : Label) : Prop :=
  ∃ line ∈ code, ∃ opcode operands,
    line.statement = .instruction opcode operands ∧ .label l ∈ operands

section Append

variable {code code' : List Line} {l : Label}

/-- Labels are defined in one of the two pieces. -/
theorem defines_append : Defines (code ++ code') l ↔ Defines code l ∨ Defines code' l := by
  simp only [Defines, List.mem_append, or_and_right, exists_or]

/-- Labels are mentioned in one of the two pieces. -/
theorem mentions_append : Mentions (code ++ code') l ↔ Mentions code l ∨ Mentions code' l := by
  simp only [Mentions, List.mem_append, or_and_right, exists_or]

theorem mentions_cons {line : Line} :
    Mentions (line :: code) l ↔ Mentions [line] l ∨ Mentions code l := by
  rw [← mentions_append, List.singleton_append]

/-- An instruction mentions the labels among its operands. -/
theorem mentions_singleton {indent : Nat} {opcode : Opcode} {operands : List Operand} :
    Mentions [⟨indent, .instruction opcode operands⟩] l ↔ .label l ∈ operands := by
  constructor
  · rintro ⟨line, hline, opcode', operands', hstatement, hl⟩
    cases List.mem_singleton.1 hline
    cases hstatement
    exact hl
  · intro hl
    exact ⟨_, List.mem_singleton_self _, opcode, operands, rfl, hl⟩

theorem not_mentions_nil : ¬ Mentions [] l := by
  rintro ⟨line, hline, -⟩
  cases hline

/-- Only instructions mention labels. -/
theorem not_mentions (h : ∀ line ∈ code, ∀ opcode operands,
    line.statement ≠ .instruction opcode operands) : ¬ Mentions code l := by
  rintro ⟨line, hline, opcode, operands, hstatement, -⟩
  exact h line hline opcode operands hstatement

/-- To define a label is not to mention it. -/
theorem not_mentions_label {indent : Nat} {l' : Label} : ¬ Mentions [⟨indent, .label l'⟩] l := by
  refine not_mentions fun line hline opcode operands hstatement => ?_
  cases List.mem_singleton.1 hline
  cases hstatement

/-- More lines define more labels. -/
theorem Defines.subset (h : Defines code l) (hsubset : ∀ line ∈ code, line ∈ code') :
    Defines code' l := by
  obtain ⟨line, hline, hstatement⟩ := h
  exact ⟨line, hsubset line hline, hstatement⟩

end Append

/-! ## The functions around a line -/

/-- The functions around what comes after a line, from those around the line itself, innermost
first.  A function is given by the place of its label. -/
def Line.enclose (line : Line) (place : Nat) (around : List Nat) : List Nat :=
  match line.statement with
  | .label l => if l.isFunction then place :: around else around
  | .instruction .ret _ => around.tail
  | _ => around

def enclosing : Nat → List Nat → List Line → List Nat
  | _, around, [] => around
  | place, around, line :: code => enclosing (place + 1) (line.enclose place around) code

def functionsAround (code : List Line) (place : Nat) : List Nat :=
  enclosing 0 [] (code.take place)

/-- The functions around a place are found piece by piece. -/
theorem enclosing_append (code code' : List Line) :
    ∀ (place : Nat) (around : List Nat), enclosing place around (code ++ code') =
      enclosing (place + code.length) (enclosing place around code) code' := by
  induction code with
  | nil => exact fun _ _ => rfl
  | cons line code ih =>
      intro place around
      rw [List.cons_append, enclosing, ih, enclosing, List.length_cons, Nat.add_assoc,
        Nat.add_comm 1]

/-- Every function that starts in the code ends in it. -/
def Balanced (code : List Line) : Prop :=
  ∀ place around, enclosing place around code = around

namespace Balanced

variable {code code' : List Line}

theorem nil : Balanced [] :=
  fun _ _ => rfl

/-- Balanced pieces make up balanced code. -/
theorem append (h : Balanced code) (h' : Balanced code') : Balanced (code ++ code') := by
  intro place around
  rw [enclosing_append, h, h']

/-- A line that starts and ends nothing is balanced. -/
theorem singleton {line : Line} (h : ∀ place around, line.enclose place around = around) :
    Balanced [line] :=
  h

/-- Of all instructions only a return ends a function. -/
theorem instruction {indent : Nat} {opcode : Opcode} {operands : List Operand}
    (h : opcode ≠ .ret) : Balanced [⟨indent, .instruction opcode operands⟩] := by
  refine singleton fun place around => ?_
  cases opcode <;> first | rfl | exact absurd rfl h

theorem label {indent : Nat} {l : Label} (h : l.isFunction = false) :
    Balanced [⟨indent, .label l⟩] := by
  refine singleton fun place around => ?_
  simp [Line.enclose, h]

/-- Comments neither start nor end a function. -/
theorem comments (h : ∀ line ∈ code, line.isComment = true) : Balanced code := by
  induction code with
  | nil => exact nil
  | cons line code ih =>
      have hline : line.isComment = true := h line (by simp)
      have hrest : Balanced code := ih fun line' hline' => h line' (by simp [hline'])
      suffices hfirst : Balanced [line] from hfirst.append hrest
      refine singleton fun place around => ?_
      unfold Line.isComment at hline
      unfold Line.enclose
      cases hstatement : line.statement <;> simp_all

/-- The code of a function, from its label to its return. -/
theorem function {indent indent' : Nat} {l : Label} {operands : List Operand}
    (hl : l.isFunction = true) (h : Balanced code) (h' : Balanced code') :
    Balanced (⟨indent, .label l⟩ :: (code ++ ⟨indent', .instruction .ret operands⟩ :: code')) := by
  intro place around
  have hlabel : Line.enclose ⟨indent, .label l⟩ place around = place :: around := by
    simp [Line.enclose, hl]
  rw [enclosing, hlabel, enclosing_append, h, enclosing, h']
  rfl

end Balanced

/-! ## Where jumps land -/

/-- The code leads to the label in the function that it starts in. -/
def LeadsTo (code : List Line) (l : Label) : Prop :=
  ∃ between indent after, code = between ++ ⟨indent, .label l⟩ :: after ∧ Balanced between

/-- Balanced code in front leads on to where the rest leads. -/
theorem LeadsTo.append_left {code code' : List Line} {l : Label} (h : LeadsTo code' l)
    (hcode : Balanced code) : LeadsTo (code ++ code') l := by
  obtain ⟨between, indent, after, rfl, hbetween⟩ := h
  exact ⟨code ++ between, indent, after, by rw [List.append_assoc], hcode.append hbetween⟩

/-- A label that has been reached stays reached. -/
theorem LeadsTo.append_right {code : List Line} {l : Label} (h : LeadsTo code l)
    (code' : List Line) : LeadsTo (code ++ code') l := by
  obtain ⟨between, indent, after, rfl, hbetween⟩ := h
  exact ⟨between, indent, after ++ code', by simp, hbetween⟩

/-- A jump on the line goes to a local label, and the lines behind it lead there or, if it is still
pending, to where they end. -/
def Line.Lands (pending : Label → Prop) (line : Line) (rest : List Line) : Prop :=
  ∀ opcode operands, line.statement = .instruction opcode operands → opcode.isJump = true →
    ∃ l, operands.getLast? = some (.label l) ∧ l.isLocal = true ∧
      (LeadsTo rest l ∨ pending l ∧ Balanced rest)

def Lands (pending : Label → Prop) : List Line → Prop
  | [] => True
  | line :: rest => line.Lands pending rest ∧ Lands pending rest

namespace Lands

variable {pending pending' : Label → Prop} {code code' : List Line}

/-- Code behind a piece: it leads to the labels that were pending, or they stay so. -/
theorem append (h : Lands pending code) (h' : Lands pending' code')
    (hpending : ∀ l, pending l → LeadsTo code' l ∨ pending' l ∧ Balanced code') :
    Lands pending' (code ++ code') := by
  induction code with
  | nil => exact h'
  | cons line rest ih =>
      refine ⟨?_, ih h.2⟩
      intro opcode operands hstatement hjump
      obtain ⟨l, htarget, hlocal, hlands⟩ := h.1 opcode operands hstatement hjump
      refine ⟨l, htarget, hlocal, ?_⟩
      -- Either the jump lands before the second piece, or it goes through the rest of the first.
      rcases hlands with hleads | ⟨hl, hrest⟩
      · exact Or.inl (hleads.append_right code')
      · rcases hpending l hl with hleads | ⟨hl', hcode'⟩
        · exact Or.inl (hleads.append_left hrest)
        · exact Or.inr ⟨hl', hrest.append hcode'⟩

/-- Fewer labels need to be behind the code if more may be pending. -/
theorem mono (h : Lands pending code) (himp : ∀ l, pending l → pending' l) :
    Lands pending' code := by
  have happend : Lands pending' (code ++ []) :=
    h.append trivial fun l hl => Or.inr ⟨himp l hl, .nil⟩
  rwa [List.append_nil] at happend

/-- The jumps of the second piece land by themselves. -/
theorem of_append (h : Lands pending (code ++ code')) : Lands pending code' := by
  induction code with
  | nil => exact h
  | cons line rest ih => exact ih h.2

/-- Code without jumps. -/
theorem of_no_jumps (h : ∀ line ∈ code, ∀ opcode operands,
    line.statement = .instruction opcode operands → opcode.isJump = false) :
    Lands pending code := by
  induction code with
  | nil => trivial
  | cons line rest ih =>
      refine ⟨?_, ih fun line' hline' => h line' (by simp [hline'])⟩
      intro opcode operands hstatement hjump
      rw [h line (by simp) opcode operands hstatement] at hjump
      cases hjump

/-- A jump to a pending label lands once that label stands behind the code. -/
theorem jump {indent : Nat} {opcode : Opcode} {operands : List Operand} {l : Label}
    (htarget : operands.getLast? = some (.label l)) (hlocal : l.isLocal = true)
    (hl : pending l) : Lands pending [⟨indent, .instruction opcode operands⟩] := by
  refine ⟨?_, trivial⟩
  intro opcode' operands' hstatement _
  cases hstatement
  exact ⟨l, htarget, hlocal, Or.inr ⟨hl, .nil⟩⟩

/-- The target of a jump stands behind it, in the same functions. -/
theorem exists_target (h : Lands (fun _ => False) code) {place indent : Nat} {opcode : Opcode}
    {operands : List Operand} (hline : code[place]? = some ⟨indent, .instruction opcode operands⟩)
    (hjump : opcode.isJump = true) :
    ∃ l target indent', operands.getLast? = some (.label l) ∧ l.isLocal = true ∧
      place < target ∧ code[target]? = some ⟨indent', .label l⟩ ∧
      functionsAround code target = functionsAround code place := by
  -- Cut the code at the jump, and what is behind the jump at its target.
  obtain ⟨hlt, hget⟩ := List.getElem?_eq_some_iff.1 hline
  have hsplit : code = code.take place ++ ⟨indent, .instruction opcode operands⟩ ::
      code.drop (place + 1) := by
    rw [← hget, List.getElem_cons_drop, List.take_append_drop]
  have hsuffix := h
  rw [hsplit] at hsuffix
  obtain ⟨l, htarget, hlocal, hlands⟩ := hsuffix.of_append.1 opcode operands rfl hjump
  obtain ⟨between, indent', after, hafter, hbetween⟩ := hlands.resolve_right fun h => h.1
  have hlength : (code.take place).length = place := List.length_take_of_le hlt.le
  -- The jump itself and what stands between it and its target leave the functions as they are.
  have hmiddle : Balanced (⟨indent, .instruction opcode operands⟩ :: between) := by
    have hopcode : opcode ≠ .ret := by
      rintro rfl
      cases hjump
    exact (Balanced.instruction hopcode).append hbetween
  have hcode : code = (code.take place ++ ⟨indent, .instruction opcode operands⟩ :: between) ++
      ⟨indent', .label l⟩ :: after := by
    rw [List.append_assoc, List.cons_append, ← hafter]
    exact hsplit
  have hplace : (code.take place ++ ⟨indent, .instruction opcode operands⟩ :: between).length =
      place + (between.length + 1) := by
    rw [List.length_append, hlength, List.length_cons]
  refine ⟨l, place + (between.length + 1), indent', htarget, hlocal, Nat.lt_add_of_pos_right
    (Nat.succ_pos _), ?_, ?_⟩
  · rw [hcode, ← hplace, List.getElem?_append_right (Nat.le_refl _), Nat.sub_self]
    rfl
  · have htake : code.take (place + (between.length + 1)) =
        code.take place ++ ⟨indent, .instruction opcode operands⟩ :: between := by
      conv_lhs => rw [hcode, ← hplace, List.take_left]
    rw [functionsAround, functionsAround, htake, enclosing_append, hmiddle]

end Lands

/-! ## Pieces of code -/

/-- A piece of code in which functions are balanced and jumps land. -/
structure Settled (pending : Label → Prop) (code : List Line) : Prop where
  balanced : Balanced code
  lands : Lands pending code

namespace Settled

variable {pending pending' : Label → Prop} {code code' : List Line}

theorem nil : Settled pending [] :=
  ⟨.nil, trivial⟩

/-- Settled pieces make up settled code. -/
theorem append (h : Settled pending code) (h' : Settled pending code') :
    Settled pending (code ++ code') :=
  ⟨h.balanced.append h'.balanced, h.lands.append h'.lands fun _ hl => Or.inr ⟨hl, h'.balanced⟩⟩

theorem mono (h : Settled pending code) (himp : ∀ l, pending l → pending' l) :
    Settled pending' code :=
  ⟨h.balanced, h.lands.mono himp⟩

/-- The code behind a piece leads to all labels that were pending. -/
theorem resolve (h : Settled pending code) (h' : Settled pending' code')
    (hpending : ∀ l, pending l → LeadsTo code' l) : Settled pending' (code ++ code') :=
  ⟨h.balanced.append h'.balanced, h.lands.append h'.lands fun l hl => Or.inl (hpending l hl)⟩

/-- An instruction of straight code is settled. -/
theorem plain {indent : Nat} {opcode : Opcode} {operands : List Operand}
    (h : opcode.isPlain = true) : Settled pending [⟨indent, .instruction opcode operands⟩] := by
  refine ⟨.instruction ?_, .of_no_jumps ?_⟩
  · rintro rfl
    cases h
  · intro line hline opcode' operands' hstatement
    cases List.mem_singleton.1 hline
    cases hstatement
    exact Opcode.isJump_of_isPlain h

/-- A jump is settled as long as its target is pending. -/
theorem jump {indent : Nat} {opcode : Opcode} {operands : List Operand} {l : Label}
    (hopcode : opcode ≠ .ret) (htarget : operands.getLast? = some (.label l))
    (hlocal : l.isLocal = true) (hl : pending l) :
    Settled pending [⟨indent, .instruction opcode operands⟩] :=
  ⟨.instruction hopcode, .jump htarget hlocal hl⟩

/-- A label inside of a function is settled. -/
theorem label {indent : Nat} {l : Label} (h : l.isFunction = false) :
    Settled pending [⟨indent, .label l⟩] := by
  refine ⟨.label h, .of_no_jumps ?_⟩
  intro line hline opcode operands hstatement
  cases List.mem_singleton.1 hline
  cases hstatement

theorem comments (h : ∀ line ∈ code, line.isComment = true) : Settled pending code := by
  refine ⟨.comments h, .of_no_jumps ?_⟩
  intro line hline opcode operands hstatement
  have hcomment := h line hline
  rw [Line.isComment, hstatement] at hcomment
  cases hcomment

end Settled

/-- What stands behind the label of a function: a settled piece of code, its return and comments. -/
def IsBody (body : List Line) : Prop :=
  ∃ code indent operands comments, Settled (fun _ => False) code ∧
    (∀ line ∈ comments, line.isComment = true) ∧
    body = code ++ ⟨indent, .instruction .ret operands⟩ :: comments

/-- A function in other code. -/
theorem IsBody.settled {pending : Label → Prop} {body : List Line} {indent : Nat} {l : Label}
    (h : IsBody body) (hl : l.isFunction = true) :
    Settled pending (⟨indent, .label l⟩ :: body) := by
  obtain ⟨code, indent', operands, comments, hcode, hcomments, rfl⟩ := h
  have hend : Settled pending comments := .comments hcomments
  refine ⟨.function hl hcode.balanced hend.balanced, ?_, ?_⟩
  · intro opcode operands hstatement
    cases hstatement
  · -- No jump inside of the function waits for a label outside.
    refine hcode.lands.append ⟨?_, hend.lands⟩ fun _ hl => hl.elim
    intro opcode operands hstatement hjump
    cases hstatement
    cases hjump

end RegisterLisp
