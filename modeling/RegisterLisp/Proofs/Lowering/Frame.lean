import RegisterLisp.Proofs.Lowering.Steps
import RegisterLisp.Proofs.Register.Sets
import RegisterLisp.Store.Code

/-!
# What lowering leaves as it was

Lowering reserves registers, enters scopes and indents, and takes all of it back, whether it
succeeds or fails at some depth.  `Lowering.Frame k` relates two states that differ at most in the
output, the log, further globals, a larger label counter and the bindings of the `k` innermost
scopes.  Every step that generates code keeps `Frame 0`; the code of a function keeps `Frame 1`
inside of its own scope, where its parameters are bound.
-/

namespace RegisterLisp

open Steps

/-! ## Writing keeps the indentation -/

namespace Listing

/-- What writing leaves as it was. -/
structure Frame (l l' : Listing) : Prop where
  indent : l'.indent = l.indent
  nextLabel : l.nextLabel ≤ l'.nextLabel

namespace Frame

/-- Writing nothing keeps the frame. -/
theorem refl (l : Listing) : Frame l l :=
  ⟨rfl, le_rfl⟩

theorem trans (l₁ l₂ l₃ : Listing) (h₁ : Frame l₁ l₂) (h₂ : Frame l₂ l₃) : Frame l₁ l₃ :=
  ⟨h₂.indent.trans h₁.indent, h₁.nextLabel.trans h₂.nextLabel⟩

end Frame

/-- Writing a statement keeps the indentation, whether it fits or not. -/
theorem keeps_write (s : Statement) : Keeps Frame (write s) := by
  intro l
  rw [write_apply, writeLine_apply]
  split
  · exact ⟨rfl, le_rfl⟩
  · split
    · exact ⟨rfl, le_rfl⟩
    · exact ⟨rfl, le_rfl⟩

theorem keeps_newLabel (stem : String) : Keeps Frame (newLabel stem) :=
  fun _ => ⟨rfl, Nat.le_succ _⟩

/-- An indentation is taken back, also after a failure. -/
theorem keeps_indented {α : Type} {step : WriteM α} (h : Keeps Frame step) :
    Keeps Frame (indented step) := by
  intro l
  have hl := h l.increaseIndent
  refine ⟨?_, hl.nextLabel⟩
  change (step l.increaseIndent).2.indent - 1 = l.indent
  rw [hl.indent]
  rfl

/-- A comment keeps the indentation, in whatever line it is cut. -/
theorem keeps_comment (text : String) : Keeps Frame (comment text) := by
  unfold comment
  split
  · refine Keeps.bind Frame.trans (keeps_write _) fun _ => ?_
    refine Keeps.bind Frame.trans (keeps_indented ?_) fun _ => keeps_write _
    exact Keeps.forM Frame.refl Frame.trans fun line _ => keeps_write _
  · exact keeps_write _

end Listing

namespace Lowering

/-! ## The frame of a step -/

/-- The states before and after a step that may bind symbols in the `k` innermost scopes. -/
structure Frame (k : Nat) (s s' : Lowering) : Prop where
  registers : s'.registers = s.registers
  depth : s'.scopes.inner.length = s.scopes.inner.length
  inner : s'.scopes.inner.drop k = s.scopes.inner.drop k
  outermost : k ≤ s.scopes.inner.length → s'.scopes.outermost = s.scopes.outermost
  globals : ∃ new, s'.scopes.globals = new ++ s.scopes.globals
  listing : Listing.Frame s.listing s'.listing

namespace Frame

variable {k : Nat}

theorem refl (s : Lowering) : Frame k s s :=
  ⟨rfl, rfl, rfl, fun _ => rfl, ⟨[], rfl⟩, Listing.Frame.refl _⟩

/-- Frames can be put together: the bindings made are in the `k` innermost scopes both times. -/
theorem trans (s t u : Lowering) (h₁ : Frame k s t) (h₂ : Frame k t u) : Frame k s u := by
  obtain ⟨new₁, hg₁⟩ := h₁.globals
  obtain ⟨new₂, hg₂⟩ := h₂.globals
  refine ⟨h₂.registers.trans h₁.registers, h₂.depth.trans h₁.depth, h₂.inner.trans h₁.inner, ?_,
    ⟨new₂ ++ new₁, ?_⟩, Listing.Frame.trans _ _ _ h₁.listing h₂.listing⟩
  · intro hk
    have hk' : k ≤ t.scopes.inner.length := by rw [h₁.depth]; exact hk
    exact (h₂.outermost hk').trans (h₁.outermost hk)
  · rw [hg₂, hg₁, List.append_assoc]

/-- What changes no scope changes no more than the innermost one. -/
theorem inside {s s' : Lowering} (h : Frame 0 s s') : Frame 1 s s' := by
  have hinner : s'.scopes.inner = s.scopes.inner := h.inner
  exact ⟨h.registers, h.depth, by rw [hinner], fun _ => h.outermost (Nat.zero_le _), h.globals,
    h.listing⟩

end Frame

/-- A step that keeps the frame, whether it succeeds or fails. -/
abbrev Framed (k : Nat) {α : Type} (step : LowerM α) : Prop :=
  Keeps (Frame k) step

namespace Framed

variable {k : Nat} {α β : Type}

theorem pure (a : α) : Framed k (pure a : LowerM α) :=
  Keeps.pure Frame.refl a

/-- A failure keeps the frame. -/
theorem throw (e : LowerError) : Framed k (throw e : LowerM α) :=
  Keeps.throw Frame.refl e

/-- A failure in the first step ends the whole with the frame of that step. -/
theorem bind {x : LowerM α} {f : α → LowerM β} (hx : Framed k x) (hf : ∀ a, Framed k (f a)) :
    Framed k (x >>= f) :=
  Keeps.bind Frame.trans hx hf

theorem get : Framed k (get : LowerM Lowering) :=
  Keeps.get Frame.refl

/-- A step that binds nothing may stand where something may be bound. -/
theorem inside {x : LowerM α} (h : Framed 0 x) : Framed 1 x :=
  fun s => (h s).inside

/-! ### Primitive steps -/

theorem tell (r : Record) : Framed k (tell r) :=
  fun _ => ⟨rfl, rfl, rfl, fun _ => rfl, ⟨[], rfl⟩, Listing.Frame.refl _⟩

/-- A step of writing keeps the rest of the state. -/
theorem writing {step : Listing.WriteM α} (h : Keeps Listing.Frame step) :
    Framed k (writing step) := by
  intro s
  have hs := h s.listing
  unfold Lowering.writing
  rcases hstep : step s.listing with ⟨r, listing⟩
  rw [hstep] at hs
  cases r with
  | ok a => exact ⟨rfl, rfl, rfl, fun _ => rfl, ⟨[], rfl⟩, hs⟩
  | error e => exact ⟨rfl, rfl, rfl, fun _ => rfl, ⟨[], rfl⟩, hs⟩

/-- An instruction only adds to the listing. -/
theorem emit (opcode : Opcode) (operands : List Operand) : Framed k (emit opcode operands) :=
  writing (Listing.keeps_write _)

theorem defineLabel (l : Label) : Framed k (defineLabel l) :=
  writing (Listing.keeps_write _)

/-- A comment only adds to the listing. -/
theorem comment (text : String) : Framed k (comment text) :=
  writing (Listing.keeps_comment text)

/-- A number for a label is used up also if the step fails later. -/
theorem newLabel (stem : String) : Framed k (newLabel stem) :=
  writing (Listing.keeps_newLabel stem)

/-- Global bindings are not part of the frame. -/
theorem bindGlobal (name : Symbol) (label : Label) : Framed k (bindGlobal name label) :=
  fun _ => ⟨rfl, rfl, rfl, fun _ => rfl, ⟨[(name, label)], rfl⟩, Listing.Frame.refl _⟩

/-- A form without code is refused before anything happens. -/
theorem unsupported (text : Thunk String) : Framed k (unsupported text : LowerM α) :=
  fun s => Frame.refl s

/-- Binding a symbol changes the innermost scope only. -/
theorem bindSymbol (name : Symbol) (value : Value) : Framed 1 (Lowering.bind name value) := by
  intro s
  change Frame 1 s { s with scopes := s.scopes.bind name value }
  unfold Scopes.bind
  cases hinner : s.scopes.inner with
  | nil =>
      -- There is no inner scope, and nothing is said of the outermost one, which is bound in.
      refine ⟨rfl, ?_, ?_, ?_, ⟨[], rfl⟩, Listing.Frame.refl _⟩
      · rw [hinner]
      · rw [hinner]
      · intro hk
        rw [hinner] at hk
        cases hk
  | cons scope rest =>
      refine ⟨rfl, ?_, ?_, fun _ => rfl, ⟨[], rfl⟩, Listing.Frame.refl _⟩
      · rw [hinner]
        rfl
      · rw [hinner]
        rfl

/-- Parameters are bound in the innermost scope, which is the one the frame leaves open. -/
theorem bindParams :
    ∀ (params : List Symbol) (regs : List Reg), Framed 1 (bindParams params regs)
  | [], _ => Framed.pure _
  | _ :: _, [] => Framed.pure _
  | p :: params, r :: regs =>
      Framed.bind (bindSymbol p (.register r)) fun _ => bindParams params regs

/-! ### Steps around others -/

/-- Reserved registers are given back, also after a failure. -/
theorem withRegisters {request : Reservation} {body : List Reg → LowerM α}
    (hbody : ∀ regs, Framed k (body regs)) : Framed k (withRegisters request body) := by
  intro s
  rcases hres : s.registers.save.reserve request with ⟨cause | regs, file⟩
  · rw [withRegisters_of_error hres]
    exact Frame.refl s
  · rw [withRegisters_of_ok hres rfl]
    have hs := hbody regs
      { s with registers := file, log := scopeRecord file.depth regs :: s.log }
    -- The body gives back what it reserved itself, so restoring undoes this reservation.
    refine ⟨?_, hs.depth, hs.inner, hs.outermost, hs.globals, hs.listing⟩
    change (RegFile.restore _) = s.registers
    rw [hs.registers]
    exact RegFile.restore_of_reserve hres

/-- The scope that is opened for arguments is closed again. -/
theorem withArguments {n : Nat} {body : List Reg → LowerM α}
    (hbody : ∀ regs, Framed k (body regs)) : Framed k (withArguments n body) := by
  unfold Lowering.withArguments
  cases Reservation.arguments n with
  | error cause => exact Framed.throw _
  | ok request => exact withRegisters hbody

/-- The scope of a function is left and its indentation taken back, also after a failure.  What
happens in that scope is lost with it, so the step inside may bind symbols there. -/
theorem insideFunction {step : LowerM α} (h : Framed 1 step) : Framed 0 (insideFunction step) := by
  intro s
  have hs := h { s with scopes := s.scopes.enter true, listing := s.listing.increaseIndent }
  -- The scope just entered is an inner one, so the outermost scope is out of reach.
  have hone : 1 ≤ (s.scopes.enter true).inner.length := by simp [Scopes.enter]
  have hleave : (Scopes.leave (step
      { s with scopes := s.scopes.enter true, listing := s.listing.increaseIndent }).2.scopes).inner
      = s.scopes.inner := by
    change List.tail _ = _
    rw [← List.drop_one]
    exact hs.inner
  refine ⟨hs.registers, ?_, ?_, fun _ => hs.outermost hone, hs.globals, ?_, hs.listing.nextLabel⟩
  · exact congrArg List.length hleave
  · exact hleave
  · change (step _).2.listing.indent - 1 = s.listing.indent
    rw [hs.listing.indent]
    rfl

end Framed
end Lowering
end RegisterLisp
