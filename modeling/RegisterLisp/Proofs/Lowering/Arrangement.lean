import RegisterLisp.Proofs.Lowering.Extents
import RegisterLisp.Proofs.Machine

/-!
# How functions lie in code

Code is made of lines that belong to no function of their own, of function literals with the jump
over them, and of named functions without one.  `Arranged inside outside code` says so, where
`outside` tells whether named functions are allowed in the code itself, and `inside` whether they
are in the bodies of functions.

Two things are read off the arrangement.  In front of the label of a literal stands a jump to behind
its end (`Arranged.jumpedOver`).  And where no named function is allowed inside of functions, all of
them are outermost (`Arranged.outermost`).

A machine that runs the body of a function goes on to the next line or jumps forward inside of the
same functions.  So it gets into another function only at a label that it reaches from the line
before, and there the only ones are those of named functions (`Arranged.liesIn_of_reaches`).
-/

namespace RegisterLisp

/-! ## Arranged code -/

/-- Lines that neither start nor end a function, and do not jump to one. -/
def Line.IsInner (line : Line) : Prop :=
  match line.statement with
  | .label l => l.isFunction = false
  | .instruction opcode operands => opcode ≠ .ret ∧
      (opcode.isJump = true → ∀ l, .label l ∈ operands → l.isFunction = false)
  | _ => True

/-- An instruction of straight code is an inner line. -/
theorem Line.IsInner.of_isPlain {indent : Nat} {opcode : Opcode} {operands : List Operand}
    (h : opcode.isPlain = true) : Line.IsInner ⟨indent, .instruction opcode operands⟩ := by
  refine ⟨?_, ?_⟩
  · rintro rfl
    cases h
  · intro hjump
    rw [Opcode.isJump_of_isPlain h] at hjump
    cases hjump

def functionLines (start stop : Nat) (l : Label) (operands : List Operand)
    (body comments : List Line) : List Line :=
  ⟨start, .label l⟩ :: (body ++ ⟨stop, .instruction .ret operands⟩ :: comments)

/-- The code is made of inner lines and of functions.  Literals are jumped over, and named functions
stand only where they are allowed. -/
inductive Arranged (inside : Prop) : Prop → List Line → Prop
  | nil {outside : Prop} : Arranged inside outside []
  | line {outside : Prop} {line : Line} (h : line.IsInner) : Arranged inside outside [line]
  | append {outside : Prop} {code code' : List Line} (h : Arranged inside outside code)
      (h' : Arranged inside outside code') : Arranged inside outside (code ++ code')
  | literal {outside : Prop} {before start stop behind : Nat} {l skip : Label}
      {operands : List Operand} {body comments : List Line} (hl : l.isFunction = true)
      (hlocal : l.isLocal = true) (hskip : skip.isFunction = false)
      (hbody : Arranged inside inside body)
      (hcomments : ∀ line ∈ comments, line.isComment = true) :
      Arranged inside outside (⟨before, .instruction .jump [.label skip]⟩ ::
        (functionLines start stop l operands body comments ++ [⟨behind, .label skip⟩]))
  | named {outside : Prop} {start stop : Nat} {l : Label} {operands : List Operand}
      {body comments : List Line} (houtside : outside) (hl : l.isLocal = false)
      (hbody : Arranged inside inside body)
      (hcomments : ∀ line ∈ comments, line.isComment = true) :
      Arranged inside outside (functionLines start stop l operands body comments)

/-- The label at this place is that of a function that is jumped over: in front of it stands a jump
to a label behind the end of the function. -/
def JumpedOver (code : List Line) (place : Nat) : Prop :=
  ∃ front before behind skip function rest,
    code = front ++ ⟨before, .instruction .jump [.label skip]⟩ ::
      (function ++ ⟨behind, .label skip⟩ :: rest) ∧
    place = front.length + 1 ∧ function ≠ [] ∧ Balanced function

/-- More code in front and behind does not change what is jumped over. -/
theorem JumpedOver.embed {code : List Line} {place : Nat} (h : JumpedOver code place)
    (front rest : List Line) : JumpedOver (front ++ code ++ rest) (front.length + place) := by
  obtain ⟨front', before, behind, skip, function, rest', rfl, rfl, hne, hbalanced⟩ := h
  refine ⟨front ++ front', before, behind, skip, function, rest' ++ rest, ?_, ?_, hne, hbalanced⟩
  · simp
  · rw [List.length_append, Nat.add_assoc]

section FunctionLines

variable {start stop : Nat} {l : Label} {operands : List Operand} {body comments : List Line}

theorem balanced_functionLines (hl : l.isFunction = true) (hbody : Balanced body)
    (hcomments : ∀ line ∈ comments, line.isComment = true) :
    Balanced (functionLines start stop l operands body comments) :=
  .function hl hbody (.comments hcomments)

/-- A label among the lines of a function is that of the function or stands in its body. -/
theorem label_of_functionLines {place indent : Nat} {l' : Label}
    (hcomments : ∀ line ∈ comments, line.isComment = true)
    (h : (functionLines start stop l operands body comments)[place]? = some ⟨indent, .label l'⟩) :
    (place = 0 ∧ l' = l) ∨
      ∃ place', place = place' + 1 ∧ body[place']? = some ⟨indent, .label l'⟩ := by
  cases place with
  | zero =>
      cases h
      exact Or.inl ⟨rfl, rfl⟩
  | succ place =>
      rw [functionLines, List.getElem?_cons_succ] at h
      by_cases hlt : place < body.length
      · rw [List.getElem?_append_left hlt] at h
        exact Or.inr ⟨place, rfl, h⟩
      · -- Behind the body there are a return and comments.
        rw [List.getElem?_append_right (Nat.not_lt.1 hlt)] at h
        rcases List.mem_cons.1 (List.mem_of_getElem? h) with hret | hcomment
        · cases hret
        · cases hcomments _ hcomment

/-- The same with the jump over the function, which is to a label of another kind. -/
theorem label_of_literal {before behind place indent : Nat} {l' skip : Label}
    (hcomments : ∀ line ∈ comments, line.isComment = true) (hskip : skip.isFunction = false)
    (hl' : l'.isFunction = true)
    (h : (⟨before, .instruction .jump [.label skip]⟩ ::
      (functionLines start stop l operands body comments ++ [⟨behind, .label skip⟩]))[place]? =
        some ⟨indent, .label l'⟩) :
    (place = 1 ∧ l' = l) ∨
      ∃ place', place = place' + 1 + 1 ∧ body[place']? = some ⟨indent, .label l'⟩ := by
  cases place with
  | zero => cases h
  | succ place =>
      rw [List.getElem?_cons_succ] at h
      by_cases hlt : place < (functionLines start stop l operands body comments).length
      · rw [List.getElem?_append_left hlt] at h
        rcases label_of_functionLines hcomments h with ⟨rfl, rfl⟩ | ⟨place, rfl, hinner⟩
        · exact Or.inl ⟨rfl, rfl⟩
        · exact Or.inr ⟨place, rfl, hinner⟩
      · rw [List.getElem?_append_right (Nat.not_lt.1 hlt)] at h
        cases List.mem_singleton.1 (List.mem_of_getElem? h)
        rw [hskip] at hl'
        cases hl'

/-- An instruction among the lines of a function is its return or stands in its body. -/
theorem instruction_of_functionLines {indent : Nat} {opcode : Opcode} {operands' : List Operand}
    (hcomments : ∀ line ∈ comments, line.isComment = true)
    (h : ⟨indent, .instruction opcode operands'⟩ ∈
      functionLines start stop l operands body comments) :
    opcode = .ret ∨ ⟨indent, .instruction opcode operands'⟩ ∈ body := by
  rcases List.mem_cons.1 h with hlabel | h
  · cases hlabel
  · rcases List.mem_append.1 h with hbody | h
    · exact Or.inr hbody
    · rcases List.mem_cons.1 h with hret | hcomment
      · cases hret
        exact Or.inl rfl
      · cases hcomments _ hcomment

/-- What is jumped over in a body is so in the function. -/
theorem JumpedOver.inBody {place : Nat} (h : JumpedOver body place) :
    JumpedOver (functionLines start stop l operands body comments) (place + 1) := by
  have hembed := h.embed [⟨start, .label l⟩] (⟨stop, .instruction .ret operands⟩ :: comments)
  rwa [List.length_singleton, Nat.add_comm] at hembed

end FunctionLines

namespace Arranged

variable {inside outside : Prop} {code : List Line}

/-- In arranged code every function that starts also ends. -/
theorem balanced (h : Arranged inside outside code) : Balanced code := by
  induction h with
  | nil => exact .nil
  | @line _ line h =>
      obtain ⟨indent, statement⟩ := line
      cases statement with
      | label l => exact .label h
      | instruction opcode operands => exact .instruction h.1
      | _ => exact .singleton fun _ _ => rfl
  | append _ _ ih ih' => exact ih.append ih'
  | @literal _ before _ _ _ _ skip _ _ _ hl _ hskip _ hcomments ih =>
      have hjump : Balanced [⟨before, .instruction .jump [.label skip]⟩] := .instruction (by simp)
      exact hjump.append ((balanced_functionLines hl ih hcomments).append (.label hskip))
  | named _ hl _ hcomments ih =>
      exact balanced_functionLines (Label.isFunction_of_not_isLocal hl) ih hcomments

theorem comments : ∀ {code : List Line}, (∀ line ∈ code, line.isComment = true) →
    Arranged inside outside code
  | [], _ => .nil
  | ⟨indent, statement⟩ :: code, h => by
      have hcomment : Line.isComment ⟨indent, statement⟩ = true := h _ (by simp)
      have hinner : Line.IsInner ⟨indent, statement⟩ := by
        cases statement with
        | instruction opcode operands => cases hcomment
        | label l => cases hcomment
        | _ => trivial
      exact .append (.line hinner) (comments fun line hline => h line (by simp [hline]))

/-- Jumps do not go to functions. -/
theorem jump_target (h : Arranged inside outside code) {indent : Nat} {opcode : Opcode}
    {operands : List Operand} {l : Label}
    (hline : ⟨indent, .instruction opcode operands⟩ ∈ code) (hjump : opcode.isJump = true)
    (hl : .label l ∈ operands) : l.isFunction = false := by
  have hret : opcode ≠ .ret := by
    rintro rfl
    cases hjump
  induction h with
  | nil => cases hline
  | line h =>
      rw [← List.mem_singleton.1 hline] at h
      exact h.2 hjump l hl
  | append _ _ ih ih' => exact (List.mem_append.1 hline).elim ih ih'
  | literal _ _ hskip _ hcomments ih =>
      rcases List.mem_cons.1 hline with heq | hline
      · cases heq
        obtain rfl : l = _ := by simpa using hl
        exact hskip
      · rcases List.mem_append.1 hline with hline | hline
        · exact ih ((instruction_of_functionLines hcomments hline).resolve_left hret)
        · cases List.mem_singleton.1 hline
  | named _ _ _ hcomments ih =>
      exact ih ((instruction_of_functionLines hcomments hline).resolve_left hret)

/-- Every literal is jumped over. -/
theorem jumpedOver (h : Arranged inside outside code) {place indent : Nat} {l : Label}
    (hline : code[place]? = some ⟨indent, .label l⟩) (hl : l.isFunction = true)
    (hlocal : l.isLocal = true) : JumpedOver code place := by
  induction h generalizing place with
  | nil => cases hline
  | line h =>
      rw [← List.mem_singleton.1 (List.mem_of_getElem? hline)] at h
      have hinner : l.isFunction = false := h
      rw [hinner] at hl
      cases hl
  | @append _ code code' _ _ ih ih' =>
      by_cases hlt : place < code.length
      · rw [List.getElem?_append_left hlt] at hline
        have hembed := (ih hline).embed [] code'
        rwa [List.nil_append, List.length_nil, Nat.zero_add] at hembed
      · have hle := Nat.not_lt.1 hlt
        rw [List.getElem?_append_right hle] at hline
        have hembed := (ih' hline).embed code []
        rwa [List.append_nil, Nat.add_sub_of_le hle] at hembed
  | @literal _ before start stop behind l' skip operands body comments _ _ hskip hbody
      hcomments ih =>
      -- The label is that of the literal, which is jumped over, or stands in its body.
      rcases label_of_literal hcomments hskip hl hline with ⟨rfl, rfl⟩ | ⟨place, rfl, hinner⟩
      · exact ⟨[], before, behind, skip, functionLines start stop l operands body comments, [],
          rfl, rfl, List.cons_ne_nil _ _, balanced_functionLines hl hbody.balanced hcomments⟩
      · have hfunction : JumpedOver (functionLines start stop l' operands body comments)
            (place + 1) := (ih hinner).inBody
        have hembed := hfunction.embed [⟨before, .instruction .jump [.label skip]⟩]
          [⟨behind, .label skip⟩]
        rwa [List.length_singleton, Nat.add_comm] at hembed
  | named _ hglobal _ hcomments ih =>
      rcases label_of_functionLines hcomments hline with ⟨-, rfl⟩ | ⟨place, rfl, hinner⟩
      · rw [hglobal] at hlocal
        cases hlocal
      · exact (ih hinner).inBody

/-- Where named functions are not allowed inside of functions, they are outermost. -/
theorem outermost (h : Arranged inside outside code) (hinside : ¬ inside) {place indent : Nat}
    {l : Label} (hline : code[place]? = some ⟨indent, .label l⟩) (hl : l.isLocal = false) :
    outside ∧ ∀ start around, enclosing start around (code.take place) = around := by
  induction h generalizing place with
  | nil => cases hline
  | line h =>
      rw [← List.mem_singleton.1 (List.mem_of_getElem? hline)] at h
      have hinner : l.isFunction = false := h
      rw [Label.isFunction_of_not_isLocal hl] at hinner
      cases hinner
  | @append _ code code' hcode _ ih ih' =>
      by_cases hlt : place < code.length
      · rw [List.getElem?_append_left hlt] at hline
        rw [List.take_append_of_le_length hlt.le]
        exact ih hline
      · have hle := Nat.not_lt.1 hlt
        rw [List.getElem?_append_right hle] at hline
        refine ⟨(ih' hline).1, fun start around => ?_⟩
        rw [List.take_append, List.take_of_length_le hle, enclosing_append, hcode.balanced,
          (ih' hline).2]
  | literal _ hlocal hskip _ hcomments ih =>
      have hfunction := Label.isFunction_of_not_isLocal hl
      rcases label_of_literal hcomments hskip hfunction hline with ⟨-, rfl⟩ | ⟨place, -, hinner⟩
      · rw [hlocal] at hl
        cases hl
      · exact absurd (ih hinner).1 hinside
  | named houtside _ _ hcomments ih =>
      -- Inside of the body nothing is named, so the label is that of the function.
      rcases label_of_functionLines hcomments hline with ⟨rfl, -⟩ | ⟨place, rfl, hinner⟩
      · exact ⟨houtside, fun _ _ => rfl⟩
      · exact absurd (ih hinner).1 hinside

end Arranged

/-! ## Running the body of a function -/

namespace Machine

variable {W : Type} {M : Machine W} {code : List Line} {m m' : State W}

/-- An instruction that is run is no return.  It goes on to the next line, unless it is a jump that
is taken; one without a condition always is. -/
theorem State.pc_of_execute {opcode : Opcode} {operands : List Operand}
    (h : m.execute M code opcode operands = some m') :
    opcode ≠ .ret ∧ (m'.pc = m.pc + 1 ∧ opcode ≠ .jump ∨
      opcode.isJump = true ∧
        ∃ l, operands.getLast? = some (.label l) ∧ place? code l = some m'.pc) := by
  have onward : ∀ m₁ : State W, m₁.pc = m.pc + 1 → some m₁ = some m' → m'.pc = m.pc + 1 := by
    rintro m₁ hpc heq
    cases heq
    exact hpc
  have taken : ∀ l, m.goto code l = some m' → place? code l = some m'.pc := by
    intro l hl
    obtain ⟨i, hi, rfl⟩ := Option.map_eq_some_iff.1 hl
    exact hi
  unfold execute at h
  split at h
  any_goals exact ⟨by simp, Or.inl ⟨onward _ rfl h, by simp⟩⟩
  · exact ⟨by simp, Or.inr ⟨rfl, _, rfl, taken _ h⟩⟩
  · split at h
    · exact ⟨by simp, Or.inr ⟨rfl, _, rfl, taken _ h⟩⟩
    · exact ⟨by simp, Or.inl ⟨onward _ rfl h, by simp⟩⟩
  · split at h
    · exact ⟨by simp, Or.inl ⟨onward _ rfl h, by simp⟩⟩
    · exact ⟨by simp, Or.inr ⟨rfl, _, rfl, taken _ h⟩⟩
  · unfold pop at h
    split at h
    · exact ⟨by simp, Or.inl ⟨onward _ rfl h, by simp⟩⟩
    · cases h
  · cases h

/-- The line that is run is no return, and the next one is behind it or the target of a jump. -/
theorem State.pc_of_step (h : m.step M code = some m') :
    ∃ line, code[m.pc]? = some line ∧
      ((m'.pc = m.pc + 1 ∧ (∀ operands, line.statement ≠ .instruction .ret operands) ∧
          ∀ operands, line.statement ≠ .instruction .jump operands) ∨
        ∃ opcode operands l, line.statement = .instruction opcode operands ∧
          opcode.isJump = true ∧ operands.getLast? = some (.label l) ∧
          place? code l = some m'.pc) := by
  obtain ⟨line, hline, hrun⟩ := Option.bind_eq_some_iff.1 h
  refine ⟨line, hline, ?_⟩
  cases hstatement : line.statement with
  | instruction opcode operands =>
      rw [hstatement] at hrun
      obtain ⟨hret, ⟨hpc, hjump⟩ | ⟨hjump, l, hl, hplace⟩⟩ := pc_of_execute hrun
      · refine Or.inl ⟨hpc, ?_, ?_⟩
        · rintro operands' heq
          cases heq
          exact hret rfl
        · rintro operands' heq
          cases heq
          exact hjump rfl
      · exact Or.inr ⟨opcode, operands, l, rfl, hjump, hl, hplace⟩
  | raw text =>
      rw [hstatement] at hrun
      cases hrun
  | _ =>
      rw [hstatement] at hrun
      cases hrun
      exact Or.inl ⟨rfl, by simp, by simp⟩

end Machine

def StartsFunction (code : List Line) (place : Nat) : Prop :=
  ∃ indent l, code[place]? = some ⟨indent, .label l⟩ ∧ l.isFunction = true

/-- The place lies in the given functions, and no other one starts there. -/
structure LiesIn (code : List Line) (around : List Nat) (place : Nat) : Prop where
  around : functionsAround code place = around
  inner : ¬ StartsFunction code place

theorem functionsAround_succ {code : List Line} {place : Nat} {line : Line}
    (h : code[place]? = some line) :
    functionsAround code (place + 1) = line.enclose place (functionsAround code place) := by
  have hlength : (code.take place).length = place :=
    List.length_take_of_le (List.getElem?_eq_some_iff.1 h).1.le
  rw [functionsAround, List.take_add_one, h, Option.toList_some, enclosing_append, hlength,
    Nat.zero_add]
  rfl

/-- A line that neither starts nor ends a function. -/
theorem Line.enclose_eq {line : Line} {place : Nat} {around : List Nat}
    (hlabel : ∀ l, line.statement = .label l → l.isFunction = false)
    (hret : ∀ operands, line.statement ≠ .instruction .ret operands) :
    line.enclose place around = around := by
  unfold enclose
  split
  · rename_i l hl
    rw [if_neg (by simp [hlabel l hl])]
  · rename_i operands hoperands
    exact absurd hoperands (hret operands)
  · rfl

theorem JumpedOver.line_before {code : List Line} {place : Nat} (h : JumpedOver code (place + 1)) :
    ∃ indent skip, code[place]? = some ⟨indent, .instruction .jump [.label skip]⟩ := by
  obtain ⟨front, before, _, skip, _, _, rfl, hplace, -⟩ := h
  obtain rfl : place = front.length := Nat.succ.inj hplace
  exact ⟨before, skip, by simp⟩

section Running

variable {inside outside : Prop} {code : List Line} {around : List Nat} {n : Nat} {W : Type}
  {M : Machine W} {m m' : Machine.State W}

/-- One step does not leave the body of a function in which no named function stands. -/
theorem Arranged.liesIn_of_step (h : Arranged inside outside code)
    (hlands : Lands (fun _ => False) code) (hfresh : FreshLabels 0 n code)
    (hnamed : ∀ place indent l, code[place]? = some ⟨indent, .label l⟩ →
      functionsAround code place = around → l.isLocal = true)
    (hstep : m.step M code = some m') (hm : LiesIn code around m.pc) :
    LiesIn code around m'.pc := by
  obtain ⟨⟨indent, statement⟩, hline, hnext | htaken⟩ := Machine.State.pc_of_step hstep
  · obtain ⟨hpc, hret, hjump⟩ := hnext
    have hlabel : ∀ l, statement = .label l → l.isFunction = false := by
      rintro l rfl
      by_contra hl
      exact hm.inner ⟨indent, l, hline, by simpa using hl⟩
    have haround : functionsAround code (m.pc + 1) = around := by
      rw [functionsAround_succ hline, Line.enclose_eq hlabel hret, hm.around]
    rw [hpc]
    refine ⟨haround, ?_⟩
    -- A literal that starts on the next line would have a jump in front of it.
    rintro ⟨indent', l, hnext, hl⟩
    have hover := h.jumpedOver hnext hl (hnamed _ _ _ hnext haround)
    obtain ⟨_, skip, hbefore⟩ := hover.line_before
    rw [hline] at hbefore
    cases hbefore
    exact hjump _ rfl
  · obtain ⟨opcode, operands, l, hstatement, hjump, hl, hplace⟩ := htaken
    obtain rfl : statement = .instruction opcode operands := hstatement
    obtain ⟨l', target, indent', hl', hlocal, -, htarget, haround⟩ :=
      hlands.exists_target hline hjump
    obtain rfl : l = l' := by simpa [hl] using hl'
    have hfound : place? code l = some target :=
      place?_eq_some hfresh.nodup htarget (Line.localLabel?_eq_some.2 ⟨rfl, hlocal⟩)
    obtain rfl : m'.pc = target := Option.some.inj (hplace.symm.trans hfound)
    refine ⟨haround.trans hm.around, ?_⟩
    rintro ⟨_, l', hstart, hfunction⟩
    rw [htarget] at hstart
    cases hstart
    rw [h.jump_target (List.mem_of_getElem? hline) hjump (List.mem_of_getLast? hl)] at hfunction
    cases hfunction

/-- Neither does a run. -/
theorem Arranged.liesIn_of_reaches (h : Arranged inside outside code)
    (hlands : Lands (fun _ => False) code) (hfresh : FreshLabels 0 n code)
    (hnamed : ∀ place indent l, code[place]? = some ⟨indent, .label l⟩ →
      functionsAround code place = around → l.isLocal = true)
    (hreaches : Machine.Reaches M code m m') (hm : LiesIn code around m.pc) :
    LiesIn code around m'.pc := by
  induction hreaches with
  | refl => exact hm
  | tail _ hstep ih => exact h.liesIn_of_step hlands hfresh hnamed hstep ih

end Running

end RegisterLisp
