import RegisterLisp.Proofs.Lowering.Labels
import RegisterLisp.Proofs.Register.Sets
import Mathlib.Logic.Function.Basic
import Mathlib.Logic.Relation

/-!
# The register machine

A machine runs lines of assembly on a register file and a stack.  What words are, what the operators
compute and what the functions that are called answer is left open: all of it is part of
`Machine`, and nothing about it is assumed but that the address of a label is not zero.

A call of a function is one step.  It puts the answer into r3, may put anything into the registers
that the caller has to save, and leaves the other registers and the stack alone.  The machine keeps
a record of every call with the register file at that time.
-/

namespace RegisterLisp

/-- What instructions compute, and what the functions answer that are called. -/
structure Machine (W : Type) where
  constant : Immediate → W
  address : Label → W
  binary : Operator → W → W → W
  unary : Operator → W → W
  negate : W → W
  isZero : W → Bool
  isZero_address : ∀ l, isZero (address l) = false
  /-- The answer to the call with this number, counted from zero. -/
  result : Nat → W
  /-- What that call leaves in a register that it may change. -/
  scratch : Nat → Reg → W

namespace Machine

structure Invocation (W : Type) where
  target : W
  regs : Reg → W

structure State (W : Type) where
  regs : Reg → W
  stack : List W
  /-- The number of the line that is run next. -/
  pc : Nat
  /-- The calls made so far. -/
  calls : List (Invocation W)

variable {W : Type}

namespace State

def next (m : State W) : State W :=
  { m with pc := m.pc + 1 }

def set (m : State W) (r : Reg) (w : W) : State W :=
  { m.next with regs := Function.update m.regs r w }

def goto (code : List Line) (m : State W) (l : Label) : Option (State W) :=
  (place? code l).map fun i => { m with pc := i }

/-- Registers with the given words in some of them. -/
def assign (regs : Reg → W) : List Reg → List W → Reg → W
  | r :: rs, w :: ws => Function.update (assign regs rs ws) r w
  | _, _ => regs

/-- Puts registers on the stack, the first one on top. -/
def push (m : State W) (set : RegSet) : State W :=
  { m.next with stack := set.toList.map m.regs ++ m.stack }

def pop (m : State W) (set : RegSet) : Option (State W) :=
  if set.toList.length ≤ m.stack.length then
    some { m.next with
      regs := assign m.regs set.toList m.stack, stack := m.stack.drop set.toList.length }
  else none

def call (M : Machine W) (m : State W) (target : W) : State W :=
  { m.next with
    regs := fun r =>
      if r = Reg.result then M.result m.calls.length
      else if r ∈ RegSet.callerSaved then M.scratch m.calls.length r
      else m.regs r
    calls := m.calls ++ [⟨target, m.regs⟩] }

/-- Runs an instruction. -/
def execute (M : Machine W) (code : List Line) (m : State W) :
    Opcode → List Operand → Option (State W)
  | .load, [.register r, .immediate i] => some (m.set r (M.constant i))
  | .load, [.register r, .label l] => some (m.set r (M.address l))
  | .move, [.register r, .register q] => some (m.set r (m.regs q))
  | .apply op, [.register r, .register q] => some (m.set r (M.binary op (m.regs r) (m.regs q)))
  | .applyConstant op, [.register r, .immediate i] =>
      some (m.set r (M.binary op (m.regs r) (M.constant i)))
  | .applyUnary op, [.register r] => some (m.set r (M.unary op (m.regs r)))
  | .negate, [.register r] => some (m.set r (M.negate (m.regs r)))
  | .jump, [.label l] => m.goto code l
  | .jumpIfZero, [.register r, .label l] =>
      if M.isZero (m.regs r) then m.goto code l else some m.next
  | .jumpIfNonzero, [.register r, .label l] =>
      if M.isZero (m.regs r) then some m.next else m.goto code l
  | .push, [.registers set] => some (m.push set)
  | .pop, [.registers set] => m.pop set
  | .call, [.label l] => some (m.call M (M.address l))
  | .call, [.register r] => some (m.call M (m.regs r))
  | _, _ => none

/-- Runs a statement.  Labels and comments do nothing. -/
def run (M : Machine W) (code : List Line) (m : State W) : Statement → Option (State W)
  | .instruction opcode operands => m.execute M code opcode operands
  | .raw _ => none
  | _ => some m.next

def step (M : Machine W) (code : List Line) (m : State W) : Option (State W) :=
  code[m.pc]?.bind fun line => m.run M code line.statement

end State

/-- The machine gets from one state to another. -/
def Reaches (M : Machine W) (code : List Line) : State W → State W → Prop :=
  Relation.ReflTransGen fun m m' => m.step M code = some m'

namespace Reaches

variable {M : Machine W} {code : List Line} {m m₁ m' : State W}

theorem refl (m : State W) : Reaches M code m m :=
  Relation.ReflTransGen.refl

/-- Runs one after the other are one run. -/
theorem trans (h : Reaches M code m m₁) (h' : Reaches M code m₁ m') : Reaches M code m m' :=
  Relation.ReflTransGen.trans h h'

end Reaches

/-! ## Saving and restoring registers -/

namespace State

/-- Other registers keep their words. -/
theorem assign_of_not_mem {regs : Reg → W} {r : Reg} :
    ∀ {rs : List Reg} {ws : List W}, r ∉ rs → assign regs rs ws r = regs r
  | [], _, _ => rfl
  | _ :: _, [], _ => rfl
  | q :: rs, w :: ws, h => by
      have hq : r ≠ q := fun heq => h (by simp [heq])
      have hrs : r ∉ rs := fun hmem => h (by simp [hmem])
      rw [assign, Function.update_of_ne hq]
      exact assign_of_not_mem hrs

/-- A register that is restored has the word that was saved. -/
theorem assign_map {regs f : Reg → W} {r : Reg} {ws : List W} :
    ∀ {rs : List Reg}, r ∈ rs → assign regs rs (rs.map f ++ ws) r = f r
  | q :: rs, h => by
      rw [List.map_cons, List.cons_append, assign]
      by_cases hq : r = q
      · rw [hq, Function.update_self]
      · rw [Function.update_of_ne hq]
        exact assign_map ((List.mem_cons.1 h).resolve_left hq)

/-- What was pushed is there again after it is popped, and so is the stack below it. -/
theorem pop_of_push {m : State W} {set : RegSet} {regs : Reg → W} {stack : List W}
    (h : m.stack = set.toList.map regs ++ stack) :
    ∃ m', m.pop set = some m' ∧ m'.pc = m.pc + 1 ∧ m'.stack = stack ∧ m'.calls = m.calls ∧
      (∀ r ∈ set, m'.regs r = regs r) ∧ ∀ r, r ∉ set → m'.regs r = m.regs r := by
  have hlength : set.toList.length ≤ m.stack.length := by
    rw [h]
    simp
  refine ⟨_, if_pos hlength, rfl, ?_, rfl, ?_, ?_⟩
  · change m.stack.drop set.toList.length = stack
    rw [h]
    simp
  · intro r hr
    change assign m.regs set.toList m.stack r = regs r
    rw [h]
    exact assign_map (RegSet.mem_toList.2 hr)
  · intro r hr
    exact assign_of_not_mem fun hmem => hr (RegSet.mem_toList.1 hmem)

end State

/-! ## Code inside other code -/

/-- `code` stands in `whole` from line `start` on, and the local labels that it defines are found
there. -/
structure Embedded (whole : List Line) (start : Nat) (code : List Line) : Prop where
  line : ∀ i line, code[i]? = some line → whole[start + i]? = some line
  place : ∀ i line l, code[i]? = some line → line.localLabel? = some l →
    place? whole l = some (start + i)

namespace Embedded

variable {whole code code' : List Line} {start : Nat} {line : Line}

/-- Code with fresh labels stands in itself. -/
theorem self {n n' : Nat} (h : FreshLabels n n' code) : Embedded code 0 code := by
  refine ⟨?_, ?_⟩
  · intro i line hi
    rwa [Nat.zero_add]
  · intro i line l hi hl
    rw [Nat.zero_add]
    exact place?_eq_some h.nodup hi hl

/-- A first piece stands where the whole stands. -/
theorem left (h : Embedded whole start (code ++ code')) : Embedded whole start code := by
  have hi : ∀ (i : Nat) line, code[i]? = some line → (code ++ code')[i]? = some line := by
    intro i line hi
    have hlt : i < code.length := (List.getElem?_eq_some_iff.1 hi).1
    rwa [List.getElem?_append_left hlt]
  exact ⟨fun i line h' => h.line i line (hi i line h'),
    fun i line l h' hl => h.place i line l (hi i line h') hl⟩

/-- The rest stands behind the first piece. -/
theorem right (h : Embedded whole start (code ++ code')) :
    Embedded whole (start + code.length) code' := by
  have hi : ∀ (i : Nat) line, code'[i]? = some line →
      (code ++ code')[code.length + i]? = some line := by
    intro i line hi
    rw [List.getElem?_append_right (Nat.le_add_right _ _), Nat.add_sub_cancel_left]
    exact hi
  refine ⟨?_, ?_⟩
  · intro i line h'
    rw [Nat.add_assoc]
    exact h.line _ line (hi i line h')
  · intro i line l h' hl
    rw [Nat.add_assoc]
    exact h.place _ line l (hi i line h') hl

theorem tail (h : Embedded whole start (line :: code)) : Embedded whole (start + 1) code := by
  have hcode : line :: code = [line] ++ code := rfl
  rw [hcode] at h
  exact h.right

/-- The first line of embedded code is the one that is run at its start. -/
theorem reaches_head {M : Machine W} {m m' : State W} (h : Embedded whole start (line :: code))
    (hpc : m.pc = start) (hrun : m.run M whole line.statement = some m') :
    Reaches M whole m m' := by
  have hline : whole[m.pc]? = some line := by
    have hline := h.line 0 line rfl
    rwa [Nat.add_zero, ← hpc] at hline
  refine Relation.ReflTransGen.single ?_
  rw [State.step, hline]
  exact hrun

end Embedded
end Machine
end RegisterLisp
