import RegisterLisp.Proofs.Lowering.Forms
import RegisterLisp.Proofs.Lowering.Frame

/-!
# Lowering leaks no state

The frame is kept by every primitive step, and the code of a function takes back the scope in which
its parameters are bound; so every piece of code keeps the frame if its parts do.  From this follows
that the code of a term does, and that of a form in a store, which may be shared or lie on a cycle.
-/

namespace RegisterLisp
namespace Lowering
namespace Framed

/-- The frame is kept by steps in sequence. -/
theorem sequential (k : Nat) : Sequential (@Framed k) :=
  ⟨Framed.pure, Framed.bind⟩

/-- Looking a symbol up changes nothing. -/
theorem lookup (name : Symbol) : Framed 0 (lookup name) := by
  refine Framed.bind Framed.get fun s => ?_
  cases s.scopes.lookup name false with
  | none => exact Framed.throw _
  | some value => exact Framed.pure _

/-- The parameters of a function are bound in its own scope, which is left at its end. -/
theorem functionAt {label : Label} {f : Function} (h : ∀ step ∈ f.body, Framed 0 step) :
    Framed 0 (functionAt label f) := by
  refine Framed.bind (Framed.defineLabel _) fun _ => Framed.bind (Framed.tell _) fun _ => ?_
  refine Framed.insideFunction (Framed.withArguments fun args => ?_)
  -- From here on the step is inside of the new scope.
  refine Framed.bind (Framed.bindParams _ _) fun _ => ?_
  refine Framed.bind ((sequential 0).inSequence h).inside fun result => ?_
  exact Framed.bind (Framed.emit _ _) fun _ => Framed.comment _

/-- All forms keep the frame. -/
theorem closed : Closed (@Framed 0) where
  toSequential := sequential 0
  live hf := Framed.bind Framed.get fun s => hf s.registers.live
  lookup := Framed.lookup
  unsupported := Framed.unsupported
  refused _ := Framed.throw _
  emit := Framed.emit
  defineLabel := Framed.defineLabel
  newLabel := Framed.newLabel
  comment := Framed.comment
  bindGlobal := Framed.bindGlobal
  withRegisters := Framed.withRegisters
  functionAt := Framed.functionAt

end Framed

/-- A part whose code, and whose body if it is a function literal, keep the frame. -/
abbrev Part.Framed (p : Part) : Prop :=
  p.Has (@Lowering.Framed 0)

namespace Framed

/-- An operand keeps the frame if its part does. -/
theorem source {p : Part} (h : p.Framed) : Framed 0 p.source :=
  closed.source h

theorem lowerProgram {parts : List Part} (h : ∀ p ∈ parts, p.Framed) :
    Framed 0 (lowerProgram parts) :=
  closed.lowerProgram h

end Framed
end Lowering

/-! ## Terms and stores -/

namespace Term

/-- The code of every term keeps the frame. -/
theorem framed_part (t : Term) : t.part.Framed :=
  Lowering.Framed.closed.term (fun _ _ => Lowering.Framed.throw _) t

theorem framed_parts (ts : List Term) : ∀ p ∈ parts ts, p.Framed :=
  Lowering.Framed.closed.terms (fun _ _ => Lowering.Framed.throw _) ts

end Term

namespace Store

/-- The code of every form of a store keeps the frame. -/
theorem framed_lower (s : Store) (r : Ref) : Lowering.Framed 0 (s.lower r) :=
  fun state =>
    (Lowering.Framed.closed.cell (fun _ _ => Lowering.Framed.throw _) s _ r).code state

theorem framed_lowerProgram (s : Store) (refs : List Ref) :
    Lowering.Framed 0 (s.lowerProgram refs) :=
  fun state => Lowering.Framed.lowerProgram
    (Lowering.Framed.closed.cells (fun _ _ => Lowering.Framed.throw _) s _ refs) state

end Store

/-! ## The state after lowering -/

namespace Lowering

/-- The state `s'` is `s` up to the output and the log, names that have been bound globally, and
local labels that have been used. -/
structure Restored (s s' : Lowering) : Prop where
  live : s'.registers.live = s.registers.live
  saved : s'.registers.saved = s.registers.saved
  inner : s'.scopes.inner = s.scopes.inner
  outermost : s'.scopes.outermost = s.scopes.outermost
  indent : s'.listing.indent = s.listing.indent
  globals : ∃ new, s'.scopes.globals = new ++ s.scopes.globals
  nextLabel : s.listing.nextLabel ≤ s'.listing.nextLabel

/-- What the frame says is that the state is restored. -/
theorem Frame.restored {s s' : Lowering} (h : Frame 0 s s') : Restored s s' where
  live := congrArg RegFile.live h.registers
  saved := congrArg RegFile.saved h.registers
  inner := h.inner
  outermost := h.outermost (Nat.zero_le _)
  indent := h.listing.indent
  globals := h.globals
  nextLabel := h.listing.nextLabel

/-- Lowering a term or a program, as plain trees or as forms of a store, restores the state,
whether it succeeds or fails and however much room there is in the sink. -/
theorem lowering_restores_state :
    (∀ (t : Term) (s : Lowering), Restored s (lower t s).2) ∧
      (∀ (ts : List Term) (s : Lowering), Restored s (lowerProgram (Term.parts ts) s).2) ∧
      (∀ (store : Store) (r : Ref) (s : Lowering), Restored s (store.lower r s).2) ∧
      ∀ (store : Store) (rs : List Ref) (s : Lowering), Restored s (store.lowerProgram rs s).2 := by
  refine ⟨?_, ?_, ?_, ?_⟩
  · intro t s
    exact (t.framed_part.code s).restored
  · intro ts s
    exact (Framed.lowerProgram (Term.framed_parts ts) s).restored
  · intro store r s
    exact (store.framed_lower r s).restored
  · intro store rs s
    exact (store.framed_lowerProgram rs s).restored

end Lowering
end RegisterLisp
