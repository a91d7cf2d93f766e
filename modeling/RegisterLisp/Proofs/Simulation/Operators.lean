import RegisterLisp.Proofs.Simulation.Basic

/-!
# The code of operators computes their values

An operator form builds its value in a temporary that was free before.  The operands leave that
temporary alone, since it is live while their code is generated; what they leave in registers that
are free again is used before anything else is written.  The loops over operands are proved by
induction on the operands, for a temporary that holds any word at the start.
-/

namespace RegisterLisp

open Machine Lowering Steps

namespace Setting

variable {W : Type} {E : Setting W}

/-! ## A temporary besides what is live -/

/-- Besides the registers in `live`, the temporary `out` is live, and nothing else. -/
structure Holding (out : Reg) (live : RegSet) (s : Lowering) : Prop where
  mem_live : ∀ r, r ∈ s.registers.live ↔ r = out ∨ r ∈ live
  fresh : out ∉ live
  index : 32 ≤ out.index.val

namespace Holding

variable {out : Reg} {live : RegSet} {s s' : Lowering}

/-- The temporary is held while globals are declared. -/
theorem after {declared : Bindings Label} (h : Holding out live s) (hafter : After declared s s') :
    Holding out live s' := by
  refine ⟨?_, h.fresh, h.index⟩
  rw [hafter.registers]
  exact h.mem_live

theorem ne_result (h : Holding out live s) : out ≠ Reg.result := by
  rintro rfl
  exact absurd h.index (by decide)

end Holding

/-- A form that is computed in a temporary of its own. -/
theorem Lowered.withTemporary {α : Type} {body : Reg → LowerM α} {read : α → (Reg → W) → W}
    {meaning : Scopes → Meaning W}
    (h : ∀ out live s a s', WellBound E s → Holding out live s → body out s = (.ok a, s') →
      ∃ code, Added code s s' ∧ E.Computes live code (meaning s.scopes) (read a)) :
    E.Lowered (Lowering.withTemporary body) read meaning := by
  intro s a s' hs hrun
  obtain ⟨out, s₁, s₂, haround, hbody, hhands, hfresh, hindex⟩ := withTemporary_eq_ok hrun
  have hs₁ : WellBound E s₁ := hs.reserved haround.scopes hhands
  have hholding : Holding out s.registers.live s₁ := by
    refine ⟨?_, hfresh, hindex⟩
    intro r
    rw [hhands.mem_live]
    simp
  obtain ⟨code, hcode, hcomputes⟩ := h out _ s₁ a s₂ hs₁ hholding hbody
  rw [haround.scopes] at hcomputes
  exact ⟨code, hcode.around haround, hcomputes⟩

/-- The code of an operand leaves the temporary alone. -/
theorem Simulates.operand {t : Term} (h : E.Simulates t) {out : Reg} {live : RegSet}
    {s s₁ : Lowering} {source : Source} (hs : WellBound E s) (hholding : Holding out live s)
    (hrun : t.part.source s = (.ok source, s₁)) :
    ∃ code, Added code s s₁ ∧
      ∀ {start calls m₀ m}, Embedded E.code start code → E.Arrives live m₀ start calls m →
        ∃ calls' m', Evaluates E.machine E.regs E.code s.scopes calls t
            (E.sourceWord m'.regs source) calls' ∧
          E.Arrives live m₀ (start + code.length) calls' m' ∧ m'.regs out = m.regs out := by
  obtain ⟨code, hcode, hcomputes⟩ := h.source s source s₁ hs hrun
  refine ⟨code, hcode, ?_⟩
  intro start calls m₀ m hembedded harrives
  obtain ⟨calls', m', hvalue, harrives'⟩ := hcomputes start calls m hembedded harrives.ready
  have hsub : ∀ r ∈ live, r ∈ s.registers.live := fun r hr => (hholding.mem_live r).2 (Or.inr hr)
  have hout : m'.regs out = m.regs out :=
    harrives'.kept.regs out (Or.inl ((hholding.mem_live out).2 (Or.inl rfl))) hholding.ne_result
  exact ⟨calls', m', hvalue, harrives.trans (harrives'.mono hsub), hout⟩

/-! ## Constants and one operand -/

/-- A constant is read from the temporary that it was loaded into. -/
theorem lowered_load (i : Immediate) :
    E.Lowered (load i) (fun v regs => v.word E.machine regs)
      (fun _ calls w calls' => w = E.machine.constant i ∧ calls' = calls) := by
  refine Lowered.withTemporary fun out live s v s' _ hholding hrun => ?_
  obtain ⟨_, s₁, hemit, hpure⟩ := bind_eq_ok.1 hrun
  cases hpure
  refine ⟨_, Added.of_wrote (wrote_of_emit hemit), ?_⟩
  intro start calls m hcode hready
  have harrives : E.Arrives live m (start + 1) calls (m.set out (E.machine.constant i)) :=
    (Arrives.refl hready).set hcode rfl hholding.fresh hholding.index
  exact ⟨calls, m.set out (E.machine.constant i), ⟨Function.update_self out _ _, rfl⟩, harrives⟩

/-- An instruction that replaces a register by the value of a function at it. -/
theorem lowered_unary {opcode : Opcode} {f : W → W} {t : Term} (ht : E.Simulates t)
    (hf : ∀ (m : State W) r, m.execute E.machine E.code opcode [.register r]
      = some (m.set r (f (m.regs r)))) :
    E.Lowered (unary opcode t.part.source) (fun v regs => v.word E.machine regs)
      (fun scopes calls w calls' => ∃ v, E.meaning t scopes calls v calls' ∧ w = f v) := by
  refine Lowered.withTemporary fun out live s v s' hs hholding hrun => ?_
  obtain ⟨source, s₁, hsource, hrun⟩ := bind_eq_ok.1 hrun
  obtain ⟨_, s₂, hput, hrun⟩ := bind_eq_ok.1 hrun
  obtain ⟨_, s₃, hemit, hpure⟩ := bind_eq_ok.1 hrun
  cases hpure
  obtain ⟨code₁, hadded₁, hoperand⟩ := ht.operand hs hholding hsource
  obtain ⟨-, code₂, hadded₂, hputs⟩ := putInto_runs (E := E) hput
  have hadded₃ := Added.of_wrote (wrote_of_emit hemit)
  refine ⟨_, (hadded₁.trans hadded₂).trans hadded₃, ?_⟩
  intro start calls m hcode hready
  obtain ⟨calls₁, m₁, hvalue, harrives₁, -⟩ := hoperand hcode.left.left (Arrives.refl hready)
  obtain ⟨m₂, harrives₂, hregs₂⟩ :=
    hputs hcode.left.right harrives₁ hholding.fresh hholding.index
  rw [Nat.add_assoc, ← List.length_append] at harrives₂
  have harrives₃ := harrives₂.set hcode.right (hf m₂ out) hholding.fresh hholding.index
  have hout : m₂.regs out = E.sourceWord m₁.regs source := by
    rw [hregs₂, Function.update_self]
  refine ⟨calls₁, m₂.set out (f (m₂.regs out)), ⟨_, hvalue, ?_⟩, ?_⟩
  · rw [← hout]
    exact Function.update_self out _ _
  · rw [List.length_append, ← Nat.add_assoc]
    exact harrives₃

/-! ## Several operands -/

/-- One more operand is combined with what the temporary holds. -/
theorem combineOne_runs {op : Operator} {t : Term} (ht : E.Simulates t) {out : Reg} {live : RegSet}
    {s s' : Lowering} {u : Unit} (hs : WellBound E s) (hholding : Holding out live s)
    (hrun : combineOne op out t.part.source s = (.ok u, s')) :
    After t.declared s s' ∧ ∃ code, Added code s s' ∧
      ∀ {start calls m₀ m}, Embedded E.code start code → E.Arrives live m₀ start calls m →
        ∃ w calls' m', Evaluates E.machine E.regs E.code s.scopes calls t w calls' ∧
          E.Arrives live m₀ (start + code.length) calls' m' ∧
          m'.regs out = E.machine.binary op (m.regs out) w := by
  obtain ⟨source, s₁, hsource, hrun⟩ := bind_eq_ok.1 hrun
  obtain ⟨code, hadded, hoperand⟩ := ht.operand hs hholding hsource
  have hafter := after_source hsource
  -- A constant and a register are combined by different instructions with the same effect.
  have hcombine : ∀ statement, Wrote statement s₁ s' →
      (∀ m : State W, m.run E.machine E.code statement
        = some (m.set out (E.machine.binary op (m.regs out) (E.sourceWord m.regs source)))) →
      After t.declared s s' ∧ ∃ code, Added code s s' ∧
        ∀ {start calls m₀ m}, Embedded E.code start code → E.Arrives live m₀ start calls m →
          ∃ w calls' m', Evaluates E.machine E.regs E.code s.scopes calls t w calls' ∧
            E.Arrives live m₀ (start + code.length) calls' m' ∧
            m'.regs out = E.machine.binary op (m.regs out) w := by
    intro statement hwrote hexecute
    refine ⟨hafter.trans (After.of_wrote hwrote), _, hadded.trans (Added.of_wrote hwrote), ?_⟩
    intro start calls m₀ m hcode harrives
    obtain ⟨calls', m₁, hvalue, harrives₁, hout⟩ := hoperand hcode.left harrives
    have hset := harrives₁.set hcode.right (hexecute m₁) hholding.fresh hholding.index
    rw [Nat.add_assoc, ← List.length_singleton, ← List.length_append] at hset
    refine ⟨_, calls', _, hvalue, hset, ?_⟩
    rw [← hout]
    exact Function.update_self out _ _
  rcases source with i | (r | l)
  · exact hcombine _ (wrote_of_emit hrun) fun _ => rfl
  · exact hcombine _ (wrote_of_emit hrun) fun _ => rfl
  · cases hrun

/-- Any number of operands is combined from the left. -/
theorem combineOne_loop {op : Operator} {out : Reg} {live : RegSet} :
    ∀ {ts : List Term}, (∀ t ∈ ts, E.Simulates t) → ∀ {s s' : Lowering} {u : Unit},
      WellBound E s → Holding out live s →
      (ts.map fun t => t.part.source).forM (combineOne op out) s = (.ok u, s') →
      ∃ code, Added code s s' ∧
        ∀ {start calls m₀ m}, Embedded E.code start code → E.Arrives live m₀ start calls m →
          ∃ ws calls' m', EvaluatesAll E.machine E.regs E.code s.scopes calls ts ws calls' ∧
            E.Arrives live m₀ (start + code.length) calls' m' ∧
            m'.regs out = ws.foldl (E.machine.binary op) (m.regs out)
  | [], _, s, s', u, _, _, hrun => by
      cases hrun
      refine ⟨[], Added.refl s, ?_⟩
      intro start calls m₀ m _ harrives
      exact ⟨[], calls, m, EvaluatesAll.nil, harrives, rfl⟩
  | t :: ts, h, s, s', u, hs, hholding, hrun => by
      obtain ⟨_, s₁, hone, hrest⟩ := bind_eq_ok.1 hrun
      obtain ⟨hafter, code₁, hadded₁, hfirst⟩ :=
        combineOne_runs (h t (by simp)) hs hholding hone
      obtain ⟨code₂, hadded₂, hloop⟩ :=
        combineOne_loop (fun t' ht' => h t' (by simp [ht'])) (hs.after hafter)
          (hholding.after hafter) hrest
      refine ⟨code₁ ++ code₂, hadded₁.trans hadded₂, ?_⟩
      intro start calls m₀ m hcode harrives
      -- The temporary holds what has been combined so far.
      obtain ⟨w, calls₁, m₁, hvalue, harrives₁, hout₁⟩ := hfirst hcode.left harrives
      obtain ⟨ws, calls', m', hvalues, harrives', hout'⟩ := hloop hcode.right harrives₁
      rw [hafter.scopes] at hvalues
      refine ⟨w :: ws, calls', m', EvaluatesAll.cons hvalue hvalues, ?_, ?_⟩
      · rw [List.length_append, ← Nat.add_assoc]
        exact harrives'
      · rw [hout', hout₁]
        rfl

/-- The code combines the values of the operands from the left. -/
theorem lowered_combineAll {op : Operator} {t : Term} {ts : List Term} (ht : E.Simulates t)
    (hts : ∀ t' ∈ ts, E.Simulates t') :
    E.Lowered (combineAll op t.part.source (ts.map fun t' => t'.part.source))
      (fun v regs => v.word E.machine regs)
      (fun scopes calls w calls' => ∃ v ws,
        EvaluatesAll E.machine E.regs E.code scopes calls (t :: ts) (v :: ws) calls' ∧
          w = ws.foldl (E.machine.binary op) v) := by
  refine Lowered.withTemporary fun out live s v s' hs hholding hrun => ?_
  obtain ⟨source, s₁, hsource, hrun⟩ := bind_eq_ok.1 hrun
  obtain ⟨_, s₂, hput, hrun⟩ := bind_eq_ok.1 hrun
  obtain ⟨_, s₃, hrest, hpure⟩ := bind_eq_ok.1 hrun
  cases hpure
  obtain ⟨code₁, hadded₁, hoperand⟩ := ht.operand hs hholding hsource
  obtain ⟨hafterPut, code₂, hadded₂, hputs⟩ := putInto_runs (E := E) hput
  have hafter : After t.declared s s₂ := (after_source hsource).trans hafterPut
  obtain ⟨code₃, hadded₃, hloop⟩ :=
    combineOne_loop hts (hs.after hafter) (hholding.after hafter) hrest
  refine ⟨_, (hadded₁.trans hadded₂).trans hadded₃, ?_⟩
  intro start calls m hcode hready
  obtain ⟨calls₁, m₁, hvalue, harrives₁, -⟩ := hoperand hcode.left.left (Arrives.refl hready)
  obtain ⟨m₂, harrives₂, hregs₂⟩ :=
    hputs hcode.left.right harrives₁ hholding.fresh hholding.index
  rw [Nat.add_assoc, ← List.length_append] at harrives₂
  obtain ⟨ws, calls', m', hvalues, harrives', hout'⟩ := hloop hcode.right harrives₂
  rw [hafter.scopes] at hvalues
  refine ⟨calls', m', ⟨_, ws, EvaluatesAll.cons hvalue hvalues, ?_⟩, ?_⟩
  · change m'.regs out = _
    rw [hout', hregs₂, Function.update_self]
  · rw [List.length_append, ← Nat.add_assoc]
    exact harrives'

/-! ## Short-circuit forms -/

/-- The operand is put into the temporary, and what follows may look at it there. -/
theorem Simulates.put {t : Term} (ht : E.Simulates t) {out : Reg} {live : RegSet}
    {s s₁ s₂ : Lowering} {source : Source} {u : Unit} (hs : WellBound E s)
    (hholding : Holding out live s) (hsource : t.part.source s = (.ok source, s₁))
    (hput : putInto out source s₁ = (.ok u, s₂)) :
    After t.declared s s₂ ∧ ∃ code, Added code s s₂ ∧
      ∀ {start calls m₀ m}, Embedded E.code start code → E.Arrives live m₀ start calls m →
        ∃ calls' m' regs, Evaluates E.machine E.regs E.code s.scopes calls t
            (E.sourceWord regs source) calls' ∧
          E.Arrives live m₀ (start + code.length) calls' m' ∧
          m'.regs out = E.sourceWord regs source := by
  obtain ⟨code₁, hadded₁, hoperand⟩ := ht.operand hs hholding hsource
  obtain ⟨hafterPut, code₂, hadded₂, hputs⟩ := putInto_runs (E := E) hput
  refine ⟨(after_source hsource).trans hafterPut, _, hadded₁.trans hadded₂, ?_⟩
  intro start calls m₀ m hcode harrives
  obtain ⟨calls', m₁, hvalue, harrives₁, -⟩ := hoperand hcode.left harrives
  obtain ⟨m₂, harrives₂, hregs₂⟩ := hputs hcode.right harrives₁ hholding.fresh hholding.index
  rw [Nat.add_assoc, ← List.length_append] at harrives₂
  refine ⟨calls', m₂, m₁.regs, hvalue, harrives₂, ?_⟩
  rw [hregs₂, Function.update_self]

/-- The step behind an operand in the temporary `out`: it generates nothing if the operand never
makes the code leave, and else an instruction that leaves for `target` if the operand makes it. -/
inductive Branch (E : Setting W) (leaves : W → Bool) (target : Label) (out : Reg)
    (source : Source) : LowerM Unit → Prop
  | none (h : ∀ regs, leaves (E.sourceWord regs source) = false) :
      Branch E leaves target out source (pure ())
  | jump {opcode operands} (h : ∀ (m : State W) stop regs, place? E.code target = some stop →
      m.regs out = E.sourceWord regs source → m.execute E.machine E.code opcode operands
        = some (if leaves (m.regs out) then { m with pc := stop } else m.next)) :
      Branch E leaves target out source (emit opcode operands)

/-- One operand of a short-circuit form. -/
theorem branch_runs {t : Term} (ht : E.Simulates t) {out : Reg} {live : RegSet}
    {leaves : W → Bool} {target : Label} {last : Source → LowerM Unit}
    (hlast : ∀ source, Branch E leaves target out source (last source)) {s s' : Lowering} {u : Unit}
    (hs : WellBound E s) (hholding : Holding out live s)
    (hrun : (t.part.source >>= fun source => putInto out source >>= fun _ => last source) s
      = (.ok u, s')) :
    After t.declared s s' ∧ ∃ code, Added code s s' ∧
      ∀ {start stop calls m₀ m}, place? E.code target = some stop → Embedded E.code start code →
        E.Arrives live m₀ start calls m →
        ∃ w calls' m', Evaluates E.machine E.regs E.code s.scopes calls t w calls' ∧
          m'.regs out = w ∧
          E.Arrives live m₀ (if leaves w then stop else start + code.length) calls' m' := by
  obtain ⟨source, s₁, hsource, hrun⟩ := bind_eq_ok.1 hrun
  obtain ⟨_, s₂, hput, hrun⟩ := bind_eq_ok.1 hrun
  obtain ⟨hafter, code, hadded, hputs⟩ := ht.put hs hholding hsource hput
  -- Either nothing is generated behind the operand, or a jump is.
  have hbranch := hlast source
  generalize last source = step at hrun hbranch
  cases hbranch with
  | none hstays =>
      cases hrun
      refine ⟨hafter, code, hadded, ?_⟩
      intro start stop calls m₀ m _ hcode harrives
      obtain ⟨calls', m₁, regs, hvalue, harrives₁, hout⟩ := hputs hcode harrives
      refine ⟨_, calls', m₁, hvalue, hout, ?_⟩
      rw [hstays regs]
      exact harrives₁
  | jump hexecute =>
      have hwrote := wrote_of_emit hrun
      refine ⟨hafter.trans (After.of_wrote hwrote), _, hadded.trans (Added.of_wrote hwrote), ?_⟩
      intro start stop calls m₀ m hstop hcode harrives
      obtain ⟨calls', m₁, regs, hvalue, harrives₁, hout⟩ := hputs hcode.left harrives
      have hstep := hexecute m₁ stop regs hstop hout
      rw [hout] at hstep
      cases hleaves : leaves (E.sourceWord regs source) with
      | true =>
          rw [hleaves, if_pos rfl] at hstep
          refine ⟨_, calls', { m₁ with pc := stop }, hvalue, hout, ?_⟩
          rw [hleaves]
          exact harrives₁.goto hcode.right hstep
      | false =>
          rw [hleaves, if_neg Bool.false_ne_true] at hstep
          refine ⟨_, calls', m₁.next, hvalue, hout, ?_⟩
          rw [hleaves, List.length_append, ← Nat.add_assoc]
          exact harrives₁.next hcode.right hstep

/-- An operand of `and` leaves for the failure if it is zero, which a label is not. -/
theorem branch_conjunct (failure : Label) (out : Reg) (source : Source) :
    Branch E E.machine.isZero failure out source
      (match source with
        | .value (.label _) => pure ()
        | _ => emit .jumpIfZero [.register out, .label failure]) := by
  have hjump : ∀ (m : State W) stop, place? E.code failure = some stop →
      m.execute E.machine E.code .jumpIfZero [.register out, .label failure]
        = some (if E.machine.isZero (m.regs out) then { m with pc := stop } else m.next) := by
    intro m stop hstop
    simp only [State.execute, State.goto, hstop, Option.map_some]
    split <;> rfl
  rcases source with i | (r | l)
  · exact Branch.jump fun m stop _ hstop _ => hjump m stop hstop
  · exact Branch.jump fun m stop _ hstop _ => hjump m stop hstop
  · exact Branch.none fun _ => E.machine.isZero_address l

/-- An operand of `or` leaves for the success unless it is zero, so a label always does. -/
theorem branch_disjunct (success : Label) (out : Reg) (source : Source) :
    Branch E (fun w => !E.machine.isZero w) success out source
      (match source with
        | .value (.label _) => emit .jump [.label success]
        | _ => emit .jumpIfNonzero [.register out, .label success]) := by
  have hjump : ∀ (m : State W) stop, place? E.code success = some stop →
      m.execute E.machine E.code .jumpIfNonzero [.register out, .label success]
        = some (if !E.machine.isZero (m.regs out) then { m with pc := stop } else m.next) := by
    intro m stop hstop
    simp only [State.execute, State.goto, hstop, Option.map_some]
    cases E.machine.isZero (m.regs out) <;> rfl
  rcases source with i | (r | l)
  · exact Branch.jump fun m stop _ hstop _ => hjump m stop hstop
  · exact Branch.jump fun m stop _ hstop _ => hjump m stop hstop
  · refine Branch.jump fun m stop regs hstop hout => ?_
    have hzero : E.machine.isZero (m.regs out) = false := by
      rw [hout]
      exact E.machine.isZero_address l
    simp only [State.execute, State.goto, hstop, hzero, Option.map_some, Bool.not_false, if_true]

/-- Operands are evaluated until one makes the code leave: `w` is the value of the last one that was
evaluated, and `left` says whether it made the code leave. -/
inductive Tests (E : Setting W) (leaves : W → Bool) :
    Scopes → List (Call W) → W → List Term → W → Bool → List (Call W) → Prop
  | nil {scopes calls w} : Tests E leaves scopes calls w [] w false calls
  | leave {scopes calls calls' w v t ts}
      (ht : Evaluates E.machine E.regs E.code scopes calls t v calls') (hv : leaves v = true) :
      Tests E leaves scopes calls w (t :: ts) v true calls'
  | next {scopes calls calls₁ calls' w v w' t ts left}
      (ht : Evaluates E.machine E.regs E.code scopes calls t v calls₁) (hv : leaves v = false)
      (hts : Tests E leaves (scopes.declare t.declared) calls₁ v ts w' left calls') :
      Tests E leaves scopes calls w (t :: ts) w' left calls'

namespace Tests

variable {scopes : Scopes} {calls calls' : List (Call W)} {ts : List Term} {w w' : W} {left : Bool}

/-- Leaving at the first zero is what `and` does. -/
theorem evaluatesAnd (h : Tests E E.machine.isZero scopes calls w ts w' left calls') :
    EvaluatesAnd E.machine E.regs E.code scopes calls w ts
      (if left then E.machine.constant (.number 0.0) else w') calls' := by
  induction h with
  | nil => exact EvaluatesAnd.nil
  | leave ht hv => exact EvaluatesAnd.stop ht hv
  | next ht hv _ ih => exact EvaluatesAnd.next ht hv ih

/-- Leaving at the first word that is not zero is what `or` does. -/
theorem evaluatesOr
    (h : Tests E (fun v => !E.machine.isZero v) scopes calls w ts w' left calls') :
    EvaluatesOr E.machine E.regs E.code scopes calls ts
      (if left then w' else E.machine.constant (.number 0.0)) calls' := by
  induction h with
  | nil => exact EvaluatesOr.nil
  | leave ht hv => exact EvaluatesOr.stop ht (by simpa using hv)
  | next ht hv _ ih => exact EvaluatesOr.next ht (by simpa using hv) ih

end Tests

/-- The operands of a short-circuit form: the code gets to its end, or to the target if an operand
made it leave. -/
theorem branches_run {out : Reg} {live : RegSet} {leaves : W → Bool} {target : Label}
    {last : Source → LowerM Unit}
    (hlast : ∀ source, Branch E leaves target out source (last source)) :
    ∀ {ts : List Term}, (∀ t ∈ ts, E.Simulates t) → ∀ {s s' : Lowering} {u : Unit},
      WellBound E s → Holding out live s →
      (ts.map fun t => t.part.source).forM (fun operand =>
        operand >>= fun source => putInto out source >>= fun _ => last source) s = (.ok u, s') →
      ∃ code, Added code s s' ∧
        ∀ {start stop calls m₀ m}, place? E.code target = some stop →
          Embedded E.code start code → E.Arrives live m₀ start calls m →
          ∃ w left calls' m', E.Tests leaves s.scopes calls (m.regs out) ts w left calls' ∧
            m'.regs out = w ∧
            E.Arrives live m₀ (if left then stop else start + code.length) calls' m'
  | [], _, s, s', u, _, _, hrun => by
      cases hrun
      refine ⟨[], Added.refl s, ?_⟩
      intro start stop calls m₀ m _ _ harrives
      exact ⟨m.regs out, false, calls, m, Tests.nil, rfl, harrives⟩
  | t :: ts, h, s, s', u, hs, hholding, hrun => by
      obtain ⟨_, s₁, hone, hrest⟩ := bind_eq_ok.1 hrun
      obtain ⟨hafter, code₁, hadded₁, hfirst⟩ := branch_runs (h t (by simp)) hlast hs hholding hone
      obtain ⟨code₂, hadded₂, hloop⟩ :=
        branches_run hlast (fun t' ht' => h t' (by simp [ht'])) (hs.after hafter)
          (hholding.after hafter) hrest
      refine ⟨code₁ ++ code₂, hadded₁.trans hadded₂, ?_⟩
      intro start stop calls m₀ m hstop hcode harrives
      obtain ⟨v, calls₁, m₁, hvalue, hout₁, harrives₁⟩ := hfirst hstop hcode.left harrives
      -- The rest runs only if the first operand does not make the code leave.
      cases hleaves : leaves v with
      | true =>
          rw [hleaves] at harrives₁
          exact ⟨v, true, calls₁, m₁, Tests.leave hvalue hleaves, hout₁, harrives₁⟩
      | false =>
          rw [hleaves] at harrives₁
          obtain ⟨w, left, calls', m', htests, hout, harrives'⟩ :=
            hloop hstop hcode.right harrives₁
          rw [hafter.scopes, hout₁] at htests
          refine ⟨w, left, calls', m', Tests.next hvalue hleaves htests, hout, ?_⟩
          rw [List.length_append, ← Nat.add_assoc]
          exact harrives'

/-- The end of a short-circuit form: at `failure` the temporary becomes zero, and at `success` it
stays. -/
theorem shortCircuitLines_runs {indent : Nat} {out : Reg} {failure success : Label} {base : Nat}
    (hcode : Embedded E.code base (shortCircuitLines indent out failure success))
    (hfailure : failure.isLocal = true) (hsuccess : success.isLocal = true) :
    place? E.code failure = some base ∧ place? E.code success = some (base + 2) ∧
      ∀ {live calls m₀ m s}, Holding out live s →
        (E.Arrives live m₀ base calls m → ∃ m', E.Arrives live m₀ (base + 3) calls m' ∧
          m'.regs out = E.machine.constant (.number 0.0)) ∧
        (E.Arrives live m₀ (base + 2) calls m → ∃ m', E.Arrives live m₀ (base + 3) calls m' ∧
          m'.regs out = m.regs out) := by
  refine ⟨?_, ?_, ?_⟩
  · exact hcode.place 0 ⟨indent, .label failure⟩ failure rfl
      (Line.localLabel?_eq_some.2 ⟨rfl, hfailure⟩)
  · exact hcode.place 2 ⟨indent, .label success⟩ success rfl
      (Line.localLabel?_eq_some.2 ⟨rfl, hsuccess⟩)
  · intro live calls m₀ m s hholding
    refine ⟨?_, ?_⟩
    · intro harrives
      have hlabel := harrives.next hcode rfl
      have hload := hlabel.set hcode.tail rfl hholding.fresh hholding.index
      refine ⟨_, hload.next hcode.tail.tail rfl, ?_⟩
      exact Function.update_self out _ _
    · intro harrives
      exact ⟨m.next, harrives.next hcode.tail.tail rfl, rfl⟩

theorem Lowered.imp {α : Type} {step : LowerM α} {read : α → (Reg → W) → W}
    {meaning meaning' : Scopes → Meaning W} (h : E.Lowered step read meaning)
    (himp : ∀ scopes calls w calls', meaning scopes calls w calls' →
      meaning' scopes calls w calls') : E.Lowered step read meaning' := by
  intro s a s' hs hrun
  obtain ⟨code, hadded, hcomputes⟩ := h s a s' hs hrun
  refine ⟨code, hadded, ?_⟩
  intro start calls m hcode hready
  obtain ⟨calls', m', hvalue, harrives⟩ := hcomputes start calls m hcode hready
  exact ⟨calls', m', himp _ _ _ _ hvalue, harrives⟩

/-- The word before the first operand of `and` is not looked at. -/
theorem evaluatesAnd_cons {scopes : Scopes} {calls calls' : List (Call W)} {t : Term}
    {ts : List Term} {w v w' : W}
    (h : EvaluatesAnd E.machine E.regs E.code scopes calls w (t :: ts) w' calls') :
    EvaluatesAnd E.machine E.regs E.code scopes calls v (t :: ts) w' calls' := by
  cases h with
  | stop ht hzero => exact EvaluatesAnd.stop ht hzero
  | next ht hzero hts => exact EvaluatesAnd.next ht hzero hts

/-- A new label adds no code. -/
theorem newLabel_runs {stem : String} {s s' : Lowering} {l : Label}
    (h : newLabel stem s = (.ok l, s')) :
    After [] s s' ∧ Added [] s s' ∧ l.isLocal = true := by
  obtain ⟨rfl, rfl⟩ := newLabel_eq_ok h
  exact ⟨⟨rfl, rfl⟩, rfl, Label.isLocal_ofLocal _ _⟩

/-- The code of `and` computes its value. -/
theorem lowered_conjunction {ts : List Term} (hts : ∀ t ∈ ts, E.Simulates t) :
    E.Lowered (conjunction (ts.map fun t => t.part.source)) (fun v regs => v.word E.machine regs)
      (fun scopes calls w calls' => EvaluatesAnd E.machine E.regs E.code scopes calls
        (E.machine.constant (.ofBool true)) ts w calls') := by
  cases ts with
  | nil =>
      refine (lowered_load (.ofBool true)).imp ?_
      rintro scopes calls w calls' ⟨rfl, rfl⟩
      exact EvaluatesAnd.nil
  | cons t ts =>
      refine Lowered.withTemporary fun out live s v s' hs hholding hrun => ?_
      obtain ⟨failure, s₁, hfailure, hrun⟩ := bind_eq_ok.1 hrun
      obtain ⟨success, s₂, hsuccess, hrun⟩ := bind_eq_ok.1 hrun
      obtain ⟨_, s₃, hoperands, hrun⟩ := bind_eq_ok.1 hrun
      obtain ⟨_, s₄, hjump, hend⟩ := bind_eq_ok.1 hrun
      obtain ⟨hafter₁, hadded₁, hlocal₁⟩ := newLabel_runs hfailure
      obtain ⟨hafter₂, hadded₂, hlocal₂⟩ := newLabel_runs hsuccess
      have hafter : After [] s s₂ := hafter₁.trans hafter₂
      obtain ⟨code, hadded, hloop⟩ :=
        branches_run (branch_conjunct failure out) hts (hs.after hafter) (hholding.after hafter)
          hoperands
      have haddedOperands : Added code s s₃ := hadded₁.trans (hadded₂.trans hadded)
      have haddedJump := Added.of_wrote (wrote_of_emit hjump)
      obtain ⟨rfl, -, -, haddedEnd⟩ := shortCircuitEnd_eq_ok hend
      refine ⟨_, (haddedOperands.trans haddedJump).trans haddedEnd, ?_⟩
      intro start calls m hcode hready
      obtain ⟨hplace, hplace', hends⟩ := shortCircuitLines_runs hcode.right hlocal₁ hlocal₂
      obtain ⟨w, left, calls', m₁, htests, hout, harrives₁⟩ :=
        hloop hplace hcode.left.left (Arrives.refl hready)
      have hvalue := evaluatesAnd_cons (v := E.machine.constant (.ofBool true)) htests.evaluatesAnd
      rw [hafter.scopes, Scopes.declare_nil] at hvalue
      rw [List.length_append, ← Nat.add_assoc]
      cases left with
      | false =>
          -- All operands are passed: the jump leads behind the failure.
          obtain ⟨m', harrives', hout'⟩ :=
            (hends hholding).2 (harrives₁.jump hcode.left.right hplace')
          refine ⟨calls', m', ?_, harrives'⟩
          change EvaluatesAnd _ _ _ _ _ _ _ (m'.regs out) _
          rw [hout', hout]
          exact hvalue
      | true =>
          obtain ⟨m', harrives', hout'⟩ := (hends hholding).1 harrives₁
          refine ⟨calls', m', ?_, harrives'⟩
          change EvaluatesAnd _ _ _ _ _ _ _ (m'.regs out) _
          rw [hout']
          exact hvalue

/-- So does the code of `or`. -/
theorem lowered_disjunction {ts : List Term} (hts : ∀ t ∈ ts, E.Simulates t) :
    E.Lowered (disjunction (ts.map fun t => t.part.source)) (fun v regs => v.word E.machine regs)
      (fun scopes calls w calls' =>
        EvaluatesOr E.machine E.regs E.code scopes calls ts w calls') := by
  cases ts with
  | nil =>
      refine (lowered_load (.ofBool false)).imp ?_
      rintro scopes calls w calls' ⟨rfl, rfl⟩
      exact EvaluatesOr.nil
  | cons t ts =>
      refine Lowered.withTemporary fun out live s v s' hs hholding hrun => ?_
      obtain ⟨failure, s₁, hfailure, hrun⟩ := bind_eq_ok.1 hrun
      obtain ⟨success, s₂, hsuccess, hrun⟩ := bind_eq_ok.1 hrun
      obtain ⟨_, s₃, hoperands, hend⟩ := bind_eq_ok.1 hrun
      obtain ⟨hafter₁, hadded₁, hlocal₁⟩ := newLabel_runs hfailure
      obtain ⟨hafter₂, hadded₂, hlocal₂⟩ := newLabel_runs hsuccess
      have hafter : After [] s s₂ := hafter₁.trans hafter₂
      obtain ⟨code, hadded, hloop⟩ :=
        branches_run (branch_disjunct success out) hts (hs.after hafter) (hholding.after hafter)
          hoperands
      have haddedOperands : Added code s s₃ := hadded₁.trans (hadded₂.trans hadded)
      obtain ⟨rfl, -, -, haddedEnd⟩ := shortCircuitEnd_eq_ok hend
      refine ⟨_, haddedOperands.trans haddedEnd, ?_⟩
      intro start calls m hcode hready
      obtain ⟨-, hplace, hends⟩ := shortCircuitLines_runs hcode.right hlocal₁ hlocal₂
      obtain ⟨w, left, calls', m₁, htests, hout, harrives₁⟩ :=
        hloop hplace hcode.left (Arrives.refl hready)
      have hvalue := htests.evaluatesOr
      rw [hafter.scopes, Scopes.declare_nil] at hvalue
      rw [List.length_append, ← Nat.add_assoc]
      cases left with
      | false =>
          -- No operand was true: the failure is what comes next.
          obtain ⟨m', harrives', hout'⟩ := (hends hholding).1 harrives₁
          refine ⟨calls', m', ?_, harrives'⟩
          change EvaluatesOr _ _ _ _ _ _ (m'.regs out) _
          rw [hout']
          exact hvalue
      | true =>
          obtain ⟨m', harrives', hout'⟩ := (hends hholding).2 harrives₁
          refine ⟨calls', m', ?_, harrives'⟩
          change EvaluatesOr _ _ _ _ _ _ (m'.regs out) _
          rw [hout', hout]
          exact hvalue

/-! ## Operator forms -/

/-- Operators fold their operands from the left, but for those that have a meaning of their own at a
single operand. -/
theorem apply_eq_foldl {op : Operator} {w : W} {ws : List W}
    (h : ws = [] → op ≠ .sub ∧ op.isUnary = false) :
    E.machine.apply op (w :: ws) = some (ws.foldl (E.machine.binary op) w) := by
  cases ws with
  | nil =>
      obtain ⟨hsub, hunary⟩ := h rfl
      rw [Machine.apply, if_neg hsub, hunary]
      rfl
  | cons v ws => rfl

theorem lowered_single {s : Symbol} {op : Operator} (hop : Operator.ofSymbol? s = some op)
    (hand : op ≠ .and) (hor : op ≠ .or) {opcode : Opcode} {f : W → W}
    (hf : ∀ (m : State W) r, m.execute E.machine E.code opcode [.register r]
      = some (m.set r (f (m.regs r))))
    (happly : ∀ w, E.machine.apply op [w] = some (f w)) {t : Term} (ht : E.Simulates t)
    (harity : op.arity.admits 1 = true) :
    E.Lowered (unary opcode t.part.source) (fun v regs => v.word E.machine regs)
      (E.meaning (.list [.atom (.symbol s), t])) := by
  refine (lowered_unary ht hf).imp ?_
  rintro scopes calls w calls' ⟨v, hv, rfl⟩
  exact Evaluates.operator hop hand hor harity (EvaluatesAll.cons hv EvaluatesAll.nil) (happly v)

/-- The code of every operator form computes its value. -/
theorem lowered_applyOperator {s : Symbol} {op : Operator} (hop : Operator.ofSymbol? s = some op)
    {ts : List Term} (hts : ∀ t ∈ ts, E.Simulates t) :
    E.Lowered (applyOperator op (ts.map fun t => t.part.source))
      (fun v regs => v.word E.machine regs) (E.meaning (.list (.atom (.symbol s) :: ts))) := by
  have hcode := operatorCode_applyOperator op (ts.map fun t => t.part.source)
  generalize hsources : (ts.map fun t => t.part.source) = sources at hcode
  generalize applyOperator op sources = code at hcode ⊢
  cases hcode with
  | conjunction _ =>
      subst hsources
      refine (lowered_conjunction hts).imp fun scopes calls w calls' hw => ?_
      exact Evaluates.and hop hw
  | disjunction _ =>
      subst hsources
      refine (lowered_disjunction hts).imp fun scopes calls w calls' hw => ?_
      exact Evaluates.or hop hw
  | negation _ =>
      obtain ⟨t, rfl, rfl⟩ := List.map_eq_singleton_iff.1 hsources
      exact lowered_single hop (by decide) (by decide) (fun _ _ => rfl) (fun _ => rfl)
        (hts t (by simp)) rfl
  | unary hunary _ =>
      obtain ⟨t, rfl, rfl⟩ := List.map_eq_singleton_iff.1 hsources
      have hne : ∀ other : Operator, other.isUnary = false → op ≠ other := by
        rintro other hother rfl
        rw [hunary] at hother
        cases hother
      have happly : ∀ w, E.machine.apply op [w] = some (E.machine.unary op w) := fun w => by
        rw [Machine.apply, if_neg (hne .sub rfl), if_pos hunary]
      exact lowered_single hop (hne .and rfl) (hne .or rfl) (fun _ _ => rfl) happly
        (hts t (by simp)) (by rw [arity_of_isUnary hunary]; rfl)
  | combination hand hor hunary hsub hadmits =>
      obtain ⟨t, rest, rfl, rfl, rfl⟩ := List.map_eq_cons_iff.1 hsources
      have ht : E.Simulates t := hts t (by simp)
      have hrest : ∀ t' ∈ rest, E.Simulates t' := fun t' ht' => hts t' (by simp [ht'])
      rw [List.length_map] at hadmits
      refine (lowered_combineAll ht hrest).imp ?_
      rintro scopes calls w calls' ⟨v, ws, hvalues, rfl⟩
      refine Evaluates.operator hop hand hor hadmits hvalues (apply_eq_foldl ?_)
      rintro rfl
      -- A single operand is subtracted by a negation.
      refine ⟨fun heq => hsub heq ?_, hunary⟩
      cases hvalues with
      | cons _ hempty =>
          cases hempty
          rfl
  | refusal _ =>
      intro s a s' _ hrun
      cases hrun

end Setting
end RegisterLisp
