import RegisterLisp.Proofs.Evaluation
import RegisterLisp.Proofs.Lowering.Restoration
import RegisterLisp.Proofs.Lowering.TermEmission

/-!
# Code that computes values

What it means that generated code computes what evaluation gives, in a form that the pieces of a
term can be put together in:

* `Kept live m m'`: which registers the machine has left alone between two states;
* `Computes`: from any state that holds the variables, code leads to its end, where the value can be
  read, with the calls made that evaluation makes;
* `Lowered`: a step of lowering generates such code whenever it succeeds.

A `Setting` fixes the machine, the whole code and the registers `vars` that hold the variables;
these are argument registers, live all the time.
-/

namespace RegisterLisp

open Machine Lowering Steps

variable {W : Type}

/-! ## Registers left alone -/

namespace Machine

/-- The stack is as before, and so are the live registers and r12 – r31; r3 may only be changed by
calls. -/
structure Kept (live : RegSet) (m m' : State W) : Prop where
  stack : m'.stack = m.stack
  calls : m.calls <+: m'.calls
  regs : ∀ r, (r ∈ live ∨ (12 ≤ r.index.val ∧ r.index.val < 32)) → r ≠ Reg.result →
    m'.regs r = m.regs r
  result : m'.calls = m.calls → m'.regs Reg.result = m.regs Reg.result

namespace Kept

variable {live live' : RegSet} {m m₁ m' : State W}

theorem refl (m : State W) : Kept live m m :=
  ⟨rfl, List.prefix_rfl, fun _ _ _ => rfl, fun _ => rfl⟩

/-- What is kept twice is kept: a register that calls change is saved both times. -/
theorem trans (h : Kept live m m₁) (h' : Kept live m₁ m') : Kept live m m' := by
  refine ⟨h'.stack.trans h.stack, h.calls.trans h'.calls, ?_, ?_⟩
  · intro r hr hne
    exact (h'.regs r hr hne).trans (h.regs r hr hne)
  · -- No call between the ends means no call in either part.
    intro hcalls
    have hle : m₁.calls.length ≤ m.calls.length := by
      rw [← hcalls]
      exact h'.calls.length_le
    have hfirst : m₁.calls = m.calls := (h.calls.eq_of_length_le hle).symm
    have hsecond : m'.calls = m₁.calls := by rw [hcalls, hfirst]
    exact (h'.result hsecond).trans (h.result hfirst)

/-- Fewer live registers ask for less. -/
theorem mono (h : Kept live m m') (hsub : ∀ r ∈ live', r ∈ live) : Kept live' m m' :=
  ⟨h.stack, h.calls, fun r hr hne => h.regs r (hr.imp_left (hsub r)) hne, h.result⟩

/-- A temporary outside the set may be changed. -/
theorem update {out : Reg} {w : W} {pc : Nat} (h : Kept live m m') (hout : out ∉ live)
    (hindex : 32 ≤ out.index.val) :
    Kept live m { m' with regs := Function.update m'.regs out w, pc } := by
  have hne : ∀ r : Reg, (r ∈ live ∨ (12 ≤ r.index.val ∧ r.index.val < 32)) → r ≠ out := by
    rintro r (hr | hr) rfl
    · exact hout hr
    · omega
  have hresult : Reg.result ≠ out := by
    rintro rfl
    exact absurd hindex (by decide)
  refine ⟨h.stack, h.calls, ?_, ?_⟩
  · intro r hr hres
    change Function.update m'.regs out w r = m.regs r
    rw [Function.update_of_ne (hne r hr)]
    exact h.regs r hr hres
  · intro hcalls
    change Function.update m'.regs out w Reg.result = m.regs Reg.result
    rw [Function.update_of_ne hresult]
    exact h.result hcalls

end Kept
end Machine

/-! ## Variables -/

/-- What stays the same while code runs: the machine, the whole code, the register file that
variables are looked up in, and the registers that hold them, which are argument registers. -/
structure Setting (W : Type) where
  machine : Machine W
  code : List Line
  regs : Reg → W
  vars : RegSet
  argument : ∀ r ∈ vars, r ∈ RegSet.arguments Reg.argumentCount

/-- The visible symbols are bound to labels or to registers that hold variables, and these are
live. -/
structure Lowering.WellBound (E : Setting W) (s : Lowering) : Prop where
  bound : ∀ name r, s.scopes.lookup name false = some (.register r) → r ∈ E.vars
  live : ∀ r ∈ E.vars, r ∈ s.registers.live

structure Lowering.After (declared : Bindings Label) (s s' : Lowering) : Prop where
  scopes : s'.scopes = s.scopes.declare declared
  registers : s'.registers = s.registers

namespace Lowering

variable {E : Setting W} {s s₁ s' : Lowering} {declared declared' : Bindings Label}

namespace After

/-- Globals are declared one after the other. -/
theorem trans (h : After declared s s₁) (h' : After declared' s₁ s') :
    After (declared' ++ declared) s s' := by
  refine ⟨?_, h'.registers.trans h.registers⟩
  rw [h'.scopes, h.scopes, Scopes.declare_append]

theorem of_wrote {statement : Statement} (h : Wrote statement s s') : After [] s s' :=
  ⟨h.scopes, h.registers⟩

/-- What is known of every step that keeps the frame and adds code. -/
theorem of_ok {α : Type} {step : LowerM α} {a : α} (hframed : Framed 0 step)
    (hemits : Emits declared step) (h : step s = (.ok a, s')) : After declared s s' := by
  have hframe : Frame 0 s s' := by
    have hs := hframed s
    rwa [h] at hs
  obtain ⟨code, hcode⟩ := hemits s a s' h
  have hinner : s'.scopes.inner = s.scopes.inner := hframe.inner
  have houtermost := hframe.outermost (Nat.zero_le _)
  refine ⟨?_, hframe.registers⟩
  have hscopes : s'.scopes = ⟨s'.scopes.inner, s'.scopes.outermost, s'.scopes.globals⟩ := rfl
  rw [hscopes, hinner, houtermost, hcode.globals]
  rfl

end After

/-- Further globals are labels, so no register becomes visible. -/
theorem lookup_declare_register {scopes : Scopes} {new : Bindings Label} {name : Symbol} {r : Reg}
    (h : (scopes.declare new).lookup name false = some (.register r)) :
    scopes.lookup name false = some (.register r) := by
  have hsame : Scopes.local? name false (scopes.declare new).outermost (scopes.declare new).inner
      = Scopes.local? name false scopes.outermost scopes.inner := rfl
  unfold Scopes.lookup at h ⊢
  rw [hsame] at h
  cases hlocal : Scopes.local? name false scopes.outermost scopes.inner with
  | some value =>
      rw [hlocal] at h
      exact h
  | none =>
      rw [hlocal] at h
      obtain ⟨l, -, hl⟩ := Option.map_eq_some_iff.1 h
      cases hl

namespace WellBound

/-- Declaring globals changes nothing about local symbols. -/
theorem after (h : WellBound E s) (hafter : After declared s s') : WellBound E s' := by
  refine ⟨?_, ?_⟩
  · intro name r hname
    rw [hafter.scopes] at hname
    exact h.bound name r (lookup_declare_register hname)
  · rw [hafter.registers]
    exact h.live

/-- Handing out registers makes nothing that is live free. -/
theorem reserved {regs : List Reg} (h : WellBound E s) (hscopes : s₁.scopes = s.scopes)
    (hhands : RegFile.Hands s.registers regs s₁.registers) : WellBound E s₁ := by
  refine ⟨?_, ?_⟩
  · rw [hscopes]
    exact h.bound
  · intro r hr
    exact (hhands.mem_live r).2 (Or.inr (h.live r hr))

end WellBound
end Lowering

/-! ## Code added to the listing -/

def Lowering.Added (code : List Line) (s s' : Lowering) : Prop :=
  s'.listing.lines = code.reverse ++ s.listing.lines

namespace Lowering.Added

variable {code code' : List Line} {s s₁ s₂ s' : Lowering}

theorem refl (s : Lowering) : Added [] s s :=
  rfl

/-- Lines are added one after the other. -/
theorem trans (h : Added code s s₁) (h' : Added code' s₁ s') : Added (code ++ code') s s' := by
  unfold Added at h h' ⊢
  rw [h', h, List.reverse_append, List.append_assoc]

theorem of_wrote {statement : Statement} (h : Wrote statement s s') :
    Added [⟨s.listing.indent, statement⟩] s s' :=
  h.lines

/-- The scope of a reservation adds no lines. -/
theorem around (haround : Around s s₁ s₂ s') (h : Added code s₁ s₂) : Added code s s' := by
  unfold Added at h ⊢
  rw [haround.listing', h, haround.listing]

end Lowering.Added

/-! ## Runs from one place of the code to another -/

namespace Setting

variable {E : Setting W} {live live' : RegSet} {m m₁ m' : State W}
  {calls calls₁ calls' : List (Call W)} {start stop : Nat}

/-- A state in which code from line `start` on may be run. -/
structure Ready (E : Setting W) (start : Nat) (calls : List (Call W)) (m : State W) : Prop where
  pc : m.pc = start
  vars : ∀ r ∈ E.vars, m.regs r = E.regs r
  calls : Matches m.calls calls

/-- The machine gets from `m` to `m'` and is ready there. -/
structure Arrives (E : Setting W) (live : RegSet) (m : State W) (stop : Nat)
    (calls : List (Call W)) (m' : State W) : Prop where
  reaches : Reaches E.machine E.code m m'
  kept : Kept live m m'
  ready : E.Ready stop calls m'

/-- Variables are in registers that no instruction of an expression writes to but those that pass
arguments. -/
theorem index_of_mem_vars {r : Reg} (hr : r ∈ E.vars) :
    4 ≤ r.index.val ∧ r.index.val < 12 :=
  RegSet.mem_arguments.1 (E.argument r hr)

/-- Where variables are kept the next line may be run. -/
theorem Ready.kept (h : E.Ready start calls m) (hkept : Kept live m m')
    (hvars : ∀ r ∈ E.vars, r ∈ live) (hpc : m'.pc = stop) (hcalls : Matches m'.calls calls') :
    E.Ready stop calls' m' := by
  refine ⟨hpc, ?_, hcalls⟩
  intro r hr
  have hne : r ≠ Reg.result := by
    rintro rfl
    exact absurd (index_of_mem_vars hr).1 (by decide)
  rw [hkept.regs r (Or.inl (hvars r hr)) hne]
  exact h.vars r hr

namespace Arrives

theorem refl (h : E.Ready start calls m) : E.Arrives live m start calls m :=
  ⟨Reaches.refl m, Kept.refl m, h⟩

/-- Runs can be put together. -/
theorem trans (h : E.Arrives live m start calls₁ m₁) (h' : E.Arrives live m₁ stop calls' m') :
    E.Arrives live m stop calls' m' :=
  ⟨h.reaches.trans h'.reaches, h.kept.trans h'.kept, h'.ready⟩

theorem mono (h : E.Arrives live m stop calls m') (hsub : ∀ r ∈ live', r ∈ live) :
    E.Arrives live' m stop calls m' :=
  ⟨h.reaches, h.kept.mono hsub, h.ready⟩

/-- One more instruction that writes a temporary. -/
theorem set {line : Line} {code : List Line} {out : Reg} {w : W}
    (h : E.Arrives live m start calls m') (hcode : Embedded E.code start (line :: code))
    (hrun : m'.run E.machine E.code line.statement = some (m'.set out w)) (hout : out ∉ live)
    (hindex : 32 ≤ out.index.val) : E.Arrives live m (start + 1) calls (m'.set out w) := by
  refine ⟨h.reaches.trans (hcode.reaches_head h.ready.pc hrun), h.kept.update hout hindex, ?_⟩
  refine ⟨congrArg (· + 1) h.ready.pc, ?_, h.ready.calls⟩
  intro r hr
  have hne : r ≠ out := by
    rintro rfl
    have hlt := (index_of_mem_vars hr).2
    omega
  change Function.update m'.regs out w r = E.regs r
  rw [Function.update_of_ne hne]
  exact h.ready.vars r hr

/-- One more line that changes nothing. -/
theorem next {line : Line} {code : List Line} (h : E.Arrives live m start calls m')
    (hcode : Embedded E.code start (line :: code))
    (hrun : m'.run E.machine E.code line.statement = some m'.next) :
    E.Arrives live m (start + 1) calls m'.next := by
  have hkept : Kept live m m'.next := ⟨h.kept.stack, h.kept.calls, h.kept.regs, h.kept.result⟩
  exact ⟨h.reaches.trans (hcode.reaches_head h.ready.pc hrun), hkept,
    congrArg (· + 1) h.ready.pc, h.ready.vars, h.ready.calls⟩

/-- One more line that only jumps. -/
theorem goto {line : Line} {code : List Line} (h : E.Arrives live m start calls m')
    (hcode : Embedded E.code start (line :: code))
    (hrun : m'.run E.machine E.code line.statement = some { m' with pc := stop }) :
    E.Arrives live m stop calls { m' with pc := stop } := by
  have hkept : Kept live m { m' with pc := stop } :=
    ⟨h.kept.stack, h.kept.calls, h.kept.regs, h.kept.result⟩
  exact ⟨h.reaches.trans (hcode.reaches_head h.ready.pc hrun), hkept, rfl, h.ready.vars,
    h.ready.calls⟩

/-- A jump goes on at the line of its label. -/
theorem jump {indent : Nat} {l : Label} {code : List Line} (h : E.Arrives live m start calls m')
    (hcode : Embedded E.code start (⟨indent, .instruction .jump [.label l]⟩ :: code))
    (hplace : place? E.code l = some stop) :
    E.Arrives live m stop calls { m' with pc := stop } := by
  refine h.goto hcode ?_
  change m'.goto E.code l = _
  rw [State.goto, hplace]
  rfl

end Arrives

/-! ## Code for a value -/

abbrev Meaning (W : Type) := List (Call W) → W → List (Call W) → Prop

/-- The code leads to its end, where a value can be read that evaluation gives. -/
def Computes (E : Setting W) (live : RegSet) (code : List Line) (meaning : Meaning W)
    (read : (Reg → W) → W) : Prop :=
  ∀ start calls m, Embedded E.code start code → E.Ready start calls m →
    ∃ calls' m', meaning calls (read m'.regs) calls' ∧
      E.Arrives live m (start + code.length) calls' m'

/-- Whenever the step succeeds, it has generated code that computes what it returns. -/
def Lowered (E : Setting W) {α : Type} (step : LowerM α) (read : α → (Reg → W) → W)
    (meaning : Scopes → Meaning W) : Prop :=
  ∀ s a s', WellBound E s → step s = (.ok a, s') →
    ∃ code, Added code s s' ∧
      E.Computes s.registers.live code (meaning s.scopes) (read a)

def meaning (E : Setting W) (t : Term) (scopes : Scopes) : Meaning W :=
  fun calls w calls' => Evaluates E.machine E.regs E.code scopes calls t w calls'

def Simulates (E : Setting W) (t : Term) : Prop :=
  E.Lowered t.part.code (fun v regs => v.word E.machine regs) (E.meaning t)

/-! ## Operands -/

def sourceWord (E : Setting W) (regs : Reg → W) : Source → W
  | .constant i => E.machine.constant i
  | .value v => v.word E.machine regs

theorem after_source {t : Term} {s s' : Lowering} {a : Source}
    (h : t.part.source s = (.ok a, s')) : After t.declared s s' :=
  After.of_ok (Framed.source t.framed_part) (Term.emits_source t.emitting.code) h

theorem after_code {t : Term} {s s' : Lowering} {v : Value}
    (h : t.part.code s = (.ok v, s')) : After t.declared s s' :=
  After.of_ok t.framed_part.code t.emitting.code h

/-- A literal operand is a constant and has no code; any other operand is the value of its code. -/
theorem Simulates.source {t : Term} (h : E.Simulates t) :
    E.Lowered t.part.source (fun source regs => E.sourceWord regs source) (E.meaning t) := by
  intro s a s' hs hsource
  unfold Part.source at hsource
  cases hi : t.part.atom?.bind Immediate.ofAtom? with
  | some i =>
      rw [hi] at hsource
      cases hsource
      refine ⟨[], Added.refl s, ?_⟩
      intro start calls m _ hready
      refine ⟨calls, m, ?_, Arrives.refl hready⟩
      cases t with
      | atom a => exact Evaluates.literal hi
      | _ => cases hi
  | none =>
      rw [hi] at hsource
      obtain ⟨v, s₁, hcode, hpure⟩ := bind_eq_ok.1 hsource
      cases hpure
      exact h s v s' hs hcode

/-- Putting an operand into a temporary. -/
theorem putInto_runs {out : Reg} {source : Source} {s s' : Lowering} {u : Unit}
    (h : putInto out source s = (.ok u, s')) :
    After [] s s' ∧ ∃ code, Added code s s' ∧
      ∀ {live start calls m m'}, Embedded E.code start code → E.Arrives live m start calls m' →
        out ∉ live → 32 ≤ out.index.val →
        ∃ m'', E.Arrives live m (start + code.length) calls m'' ∧
          m''.regs = Function.update m'.regs out (E.sourceWord m'.regs source) := by
  -- A constant is loaded, and a label as well; a register is moved.
  rcases source with i | (r | l)
  · have hwrote := wrote_of_emit h
    refine ⟨After.of_wrote hwrote, _, Added.of_wrote hwrote, ?_⟩
    intro live start calls m m' hcode harrives hout hindex
    exact ⟨_, harrives.set hcode rfl hout hindex, rfl⟩
  · change (if r = out then _ else _ : LowerM Unit) s = _ at h
    by_cases hr : r = out
    · -- The operand is there already.
      rw [if_pos hr] at h
      cases h
      refine ⟨⟨rfl, rfl⟩, [], Added.refl s, ?_⟩
      intro live start calls m m' _ harrives _ _
      refine ⟨m', harrives, ?_⟩
      rw [hr]
      exact (Function.update_eq_self out m'.regs).symm
    · rw [if_neg hr] at h
      have hwrote := wrote_of_emit h
      refine ⟨After.of_wrote hwrote, _, Added.of_wrote hwrote, ?_⟩
      intro live start calls m m' hcode harrives hout hindex
      exact ⟨_, harrives.set hcode rfl hout hindex, rfl⟩
  · have hwrote := wrote_of_emit h
    refine ⟨After.of_wrote hwrote, _, Added.of_wrote hwrote, ?_⟩
    intro live start calls m m' hcode harrives hout hindex
    exact ⟨_, harrives.set hcode rfl hout hindex, rfl⟩

end Setting
end RegisterLisp
