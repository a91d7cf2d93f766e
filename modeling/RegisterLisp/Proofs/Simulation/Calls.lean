import RegisterLisp.Proofs.Simulation.Operators

/-!
# The code of calls passes the arguments

The arguments of a call are computed into temporaries of their own and moved to the argument
registers when all are there.  Around the call, the live registers that it may change are saved.  So
a call changes none of the live registers but r3, which its result is left in, and the function is
called with the values of the arguments in r4, r5, ….
-/

namespace RegisterLisp

open Machine Lowering Steps

namespace Setting

variable {W : Type} {E : Setting W}

/-! ## Saving, placing and restoring -/

/-- Saving puts the words of the registers on the stack, if there are any to save. -/
theorem push_runs {saved : RegSet} {s s' : Lowering} {u : Unit}
    (h : transfer .push saved s = (.ok u, s')) :
    ∃ code, Added code s s' ∧ ∀ {start} {m : State W}, Embedded E.code start code → m.pc = start →
      ∃ m', Reaches E.machine E.code m m' ∧ m'.pc = start + code.length ∧ m'.regs = m.regs ∧
        m'.stack = saved.toList.map m.regs ++ m.stack ∧ m'.calls = m.calls := by
  unfold transfer at h
  by_cases hempty : saved.isEmpty = true
  · rw [if_pos hempty] at h
    cases h
    have hnil : saved.toList = [] := by
      refine List.eq_nil_iff_forall_not_mem.2 fun r hr => ?_
      exact RegSet.not_mem_of_isEmpty hempty (RegSet.mem_toList.1 hr)
    refine ⟨[], Added.refl s, ?_⟩
    intro start m _ hpc
    refine ⟨m, Reaches.refl m, hpc, rfl, ?_, rfl⟩
    rw [hnil]
    rfl
  · rw [if_neg hempty] at h
    refine ⟨_, Added.of_wrote (wrote_of_emit h), ?_⟩
    intro start m hcode hpc
    exact ⟨m.push saved, hcode.reaches_head hpc rfl, congrArg (· + 1) hpc, rfl, rfl, rfl⟩

/-- Getting them back gives each register the word that was saved for it. -/
theorem pop_runs {saved : RegSet} {s s' : Lowering} {u : Unit}
    (h : transfer .pop saved s = (.ok u, s')) :
    ∃ code, Added code s s' ∧ ∀ {start} regs stack {m : State W}, Embedded E.code start code →
      m.pc = start → m.stack = saved.toList.map regs ++ stack →
      ∃ m', Reaches E.machine E.code m m' ∧ m'.pc = start + code.length ∧ m'.stack = stack ∧
        m'.calls = m.calls ∧ (∀ r ∈ saved, m'.regs r = regs r) ∧
        ∀ r, r ∉ saved → m'.regs r = m.regs r := by
  unfold transfer at h
  by_cases hempty : saved.isEmpty = true
  · rw [if_pos hempty] at h
    cases h
    have hnone : ∀ r, r ∉ saved := fun r => RegSet.not_mem_of_isEmpty hempty
    have hnil : saved.toList = [] :=
      List.eq_nil_iff_forall_not_mem.2 fun r hr => hnone r (RegSet.mem_toList.1 hr)
    refine ⟨[], Added.refl s, ?_⟩
    intro start regs stack m _ hpc hstack
    rw [hnil] at hstack
    exact ⟨m, Reaches.refl m, hpc, hstack, rfl, fun r hr => absurd hr (hnone r), fun _ _ => rfl⟩
  · rw [if_neg hempty] at h
    refine ⟨_, Added.of_wrote (wrote_of_emit h), ?_⟩
    intro start regs stack m hcode hpc hstack
    obtain ⟨m', hpop, hpc', hstack', hcalls, hsaved, hothers⟩ := State.pop_of_push hstack
    refine ⟨m', hcode.reaches_head hpc hpop, ?_, hstack', hcalls, hsaved, hothers⟩
    rw [hpc', hpc]
    rfl

/-- The moves to the argument registers.  No temporary is an argument register, so no move changes
what a later one moves. -/
theorem placeArguments_runs :
    ∀ {regs temps : List Reg}, regs.Nodup → regs.length = temps.length →
      (∀ r ∈ temps, r ∉ regs) → ∀ {s s' : Lowering} {u : Unit},
      placeArguments regs temps s = (.ok u, s') →
      ∃ code, Added code s s' ∧ ∀ {start} {m : State W}, Embedded E.code start code →
        m.pc = start →
        ∃ m', Reaches E.machine E.code m m' ∧ m'.pc = start + code.length ∧
          m'.stack = m.stack ∧ m'.calls = m.calls ∧ regs.map m'.regs = temps.map m.regs ∧
          ∀ r, r ∉ regs → m'.regs r = m.regs r
  | [], [], _, _, _, s, s', u, h => by
      cases h
      refine ⟨[], Added.refl s, ?_⟩
      intro start m _ hpc
      exact ⟨m, Reaches.refl m, hpc, rfl, rfl, rfl, fun _ _ => rfl⟩
  | r :: regs, temp :: temps, hnodup, hlength, hdisjoint, s, s', u, h => by
      obtain ⟨_, s₁, hmove, hrest⟩ := bind_eq_ok.1 h
      have hadded₁ := Added.of_wrote (wrote_of_emit hmove)
      have hr : r ∉ regs := (List.nodup_cons.1 hnodup).1
      have hdisjoint' : ∀ q ∈ temps, q ∉ regs := fun q hq hmem =>
        hdisjoint q (by simp [hq]) (by simp [hmem])
      obtain ⟨code, hadded, hloop⟩ :=
        placeArguments_runs (List.nodup_cons.1 hnodup).2 (by simpa using hlength) hdisjoint' hrest
      refine ⟨_, hadded₁.trans hadded, ?_⟩
      intro start m hcode hpc
      have hstep := hcode.left.reaches_head (M := E.machine) (m := m) hpc rfl
      obtain ⟨m', hreaches, hpc', hstack, hcalls, hplaced, hothers⟩ :=
        hloop (m := m.set r (m.regs temp)) hcode.right (congrArg (· + 1) hpc)
      -- The move to `r` changes none of the temporaries that are still to be moved.
      have hmoved : ∀ q ∈ temps, (m.set r (m.regs temp)).regs q = m.regs q := by
        intro q hq
        have hne : q ≠ r := by
          rintro rfl
          exact hdisjoint q (by simp [hq]) (by simp)
        exact Function.update_of_ne hne _ _
      refine ⟨m', hstep.trans hreaches, ?_, hstack, hcalls, ?_, ?_⟩
      · rw [hpc', List.length_append, Nat.add_assoc]
      · rw [List.map_cons, List.map_cons, hplaced, hothers r hr]
        refine congrArg₂ _ (Function.update_self r _ _) ?_
        exact List.map_congr_left hmoved
      · intro q hq
        have hne : q ≠ r := by
          rintro rfl
          exact hq (by simp)
        rw [hothers q fun hmem => hq (by simp [hmem])]
        exact Function.update_of_ne hne _ _

/-! ## The call itself -/

/-- What a call may change has been saved, or is neither live nor among r12 – r31. -/
theorem not_mem_callerSaved {live : RegSet} {r : Reg}
    (hr : r ∈ live ∨ (12 ≤ r.index.val ∧ r.index.val < 32))
    (hsaved : r ∉ live.inter RegSet.callerSaved) : r ∉ RegSet.callerSaved := by
  intro hcaller
  rcases hr with hr | hr
  · exact hsaved (RegSet.mem_inter.2 ⟨hr, hcaller⟩)
  · have hindex := RegSet.mem_callerSaved.1 hcaller
    omega

theorem not_mem_arguments {n : Nat} {r : Reg} (hn : n ≤ 8) (hr : r ∉ RegSet.callerSaved) :
    r ∉ (RegSet.arguments n).toList := by
  intro hmem
  have hindex := RegSet.mem_arguments.1 (RegSet.mem_toList.1 hmem)
  exact hr (RegSet.mem_callerSaved.2 (Or.inl ⟨hindex.1, by omega⟩))

/-- A function has been called with its arguments in place. -/
structure Called (E : Setting W) (target : W) (args : List W) (m m' : State W) : Prop where
  stack : m'.stack = m.stack
  calls : ∃ call : Invocation W, m'.calls = m.calls ++ [call] ∧ call.Passes ⟨target, args⟩
  result : m'.regs Reg.result = E.machine.result m.calls.length
  regs : ∀ r, r ≠ Reg.result → r ∉ RegSet.callerSaved → m'.regs r = m.regs r

/-- The moves to the argument registers and the call. -/
theorem placeAndCall_runs {f : Value} {temps : List Reg} {s s' : Lowering} {u : Unit}
    (hf : ∀ r, f = .register r → 32 ≤ r.index.val) (htemps : ∀ r ∈ temps, 32 ≤ r.index.val)
    (hcount : temps.length ≤ 8)
    (h : (placeArguments (RegSet.arguments temps.length).toList temps >>= fun _ =>
      emit .call [Operand.ofValue f]) s = (.ok u, s')) :
    ∃ code, Added code s s' ∧ ∀ {start} {m : State W}, Embedded E.code start code → m.pc = start →
      ∃ m', Reaches E.machine E.code m m' ∧ m'.pc = start + code.length ∧
        E.Called (f.word E.machine m.regs) (temps.map m.regs) m m' := by
  obtain ⟨_, s₁, hplace, hemit⟩ := bind_eq_ok.1 h
  have htemporary : ∀ r : Reg, 32 ≤ r.index.val → r ∉ (RegSet.arguments temps.length).toList := by
    intro r hr hmem
    have hindex := RegSet.mem_arguments.1 (RegSet.mem_toList.1 hmem)
    omega
  obtain ⟨code, hadded, hplaces⟩ :=
    placeArguments_runs (E := E) (RegSet.nodup_toList _) (RegSet.length_toList_arguments hcount)
      (fun r hr => htemporary r (htemps r hr)) hplace
  refine ⟨_, hadded.trans (Added.of_wrote (wrote_of_emit hemit)), ?_⟩
  intro start m hcode hpc
  obtain ⟨m₁, hreaches₁, hpc₁, hstack₁, hcalls₁, hplaced, hothers⟩ := hplaces hcode.left hpc
  -- The word that is called is not in an argument register.
  have htarget : f.word E.machine m₁.regs = f.word E.machine m.regs := by
    cases f with
    | label l => rfl
    | register r => exact hothers r (htemporary r (hf r rfl))
  have hexecute : m₁.run E.machine E.code (.instruction .call [Operand.ofValue f])
      = some (m₁.call E.machine (f.word E.machine m.regs)) := by
    rw [← htarget]
    cases f <;> rfl
  refine ⟨m₁.call E.machine (f.word E.machine m.regs),
    hreaches₁.trans (hcode.right.reaches_head hpc₁ hexecute), ?_, hstack₁, ?_, ?_, ?_⟩
  · change m₁.pc + 1 = _
    rw [hpc₁, List.length_append, Nat.add_assoc]
    rfl
  · refine ⟨⟨f.word E.machine m.regs, m₁.regs⟩, ?_, rfl, ?_⟩
    · rw [← hcalls₁]
      rfl
    · change (RegSet.arguments (temps.map m.regs).length).toList.map m₁.regs = temps.map m.regs
      rw [List.length_map, hplaced]
  · rw [← hcalls₁]
    simp [State.call]
  · intro r hne hr
    rw [← hothers r (not_mem_arguments hcount hr)]
    simp [State.call, hne, hr]

/-- A call keeps the live registers other than r3, and leaves its result there. -/
theorem invoke_runs {live : RegSet} {f : Value} {temps : List Reg} {s s' : Lowering} {v : Value}
    (hvars : ∀ r ∈ E.vars, r ∈ live) (hf : ∀ r, f = .register r → 32 ≤ r.index.val)
    (htemps : ∀ r ∈ temps, 32 ≤ r.index.val)
    (h : invoke (live.inter RegSet.callerSaved) (Operand.ofValue f) temps temps.length s
      = (.ok v, s')) :
    v = .register Reg.result ∧ ∃ code, Added code s s' ∧
      ∀ {start calls m₀ m}, Embedded E.code start code → E.Arrives live m₀ start calls m →
        ∃ m', E.Arrives live m₀ (start + code.length)
            (calls ++ [⟨f.word E.machine m.regs, temps.map m.regs⟩]) m' ∧
          m'.regs Reg.result = E.machine.result calls.length := by
  rw [invoke_eq] at h
  obtain ⟨_, s₁, hpush, h⟩ := bind_eq_ok.1 h
  obtain ⟨_, s₂, hcall, h⟩ := bind_eq_ok.1 h
  obtain ⟨_, s₃, hpop, h⟩ := bind_eq_ok.1 h
  cases h
  -- Three pieces of code: saving, the call itself and getting back what was saved.
  obtain ⟨t₁, t₂, haround, hbody, hcount⟩ := withArguments_eq_ok hcall
  obtain ⟨code₁, hadded₁, hpushes⟩ := push_runs (E := E) hpush
  obtain ⟨code₂, hadded₂, hcalling⟩ := placeAndCall_runs (E := E) hf htemps hcount hbody
  obtain ⟨code₃, hadded₃, hpops⟩ := pop_runs (E := E) hpop
  refine ⟨rfl, _, (hadded₁.trans (hadded₂.around haround)).trans hadded₃, ?_⟩
  -- The machine runs through them one after the other.
  intro start calls m₀ m hcode harrives
  obtain ⟨m₁, hreaches₁, hpc₁, hregs₁, hstack₁, hcalls₁⟩ :=
    hpushes hcode.left.left harrives.ready.pc
  obtain ⟨m₂, hreaches₂, hpc₂, hcalled⟩ := hcalling hcode.left.right hpc₁
  rw [Nat.add_assoc, ← List.length_append] at hpc₂
  obtain ⟨m', hreaches₃, hpc', hstack', hcalls₃, hsaved, hrest⟩ :=
    hpops m.regs m.stack hcode.right hpc₂ (hcalled.stack.trans hstack₁)
  rw [hregs₁] at hcalled
  obtain ⟨call, hcalls₂, hpasses⟩ := hcalled.calls
  have hcalls : m'.calls = m.calls ++ [call] := by rw [hcalls₃, hcalls₂, hcalls₁]
  have hkept : Kept live m m' := by
    refine ⟨hstack', ?_, ?_, ?_⟩
    · rw [hcalls]
      exact List.prefix_append _ _
    · intro r hr hne
      by_cases hmem : r ∈ live.inter RegSet.callerSaved
      · exact hsaved r hmem
      · -- What has not been saved is nothing that the call may change.
        rw [hrest r hmem, hcalled.regs r hne (not_mem_callerSaved hr hmem), hregs₁]
    · -- There was a call, so nothing is said about r3.
      intro heq
      rw [hcalls] at heq
      simp at heq
  have hmatches : Matches m'.calls (calls ++ [⟨f.word E.machine m.regs, temps.map m.regs⟩]) := by
    rw [hcalls]
    exact harrives.ready.calls.snoc hpasses
  have hready := harrives.ready.kept hkept hvars hpc' hmatches
  rw [Nat.add_assoc, ← List.length_append] at hready
  refine ⟨m', ⟨?_, harrives.kept.trans hkept, hready⟩, ?_⟩
  · exact harrives.reaches.trans ((hreaches₁.trans hreaches₂).trans hreaches₃)
  · have hnot : Reg.result ∉ live.inter RegSet.callerSaved := by
      intro hmem
      exact absurd (RegSet.mem_callerSaved.1 (RegSet.mem_inter.1 hmem).2) (by decide)
    rw [hrest _ hnot, hcalled.result, hcalls₁, harrives.ready.calls.length_eq]

/-! ## Arguments -/

/-- The registers of `temps` are held for later, beside those of `live`. -/
structure HoldingAll (temps : List Reg) (live : RegSet) (s : Lowering) : Prop where
  nodup : temps.Nodup
  kept : ∀ r ∈ live, r ∈ s.registers.live
  free : ∀ r ∈ temps, r ∈ s.registers.live ∧ r ∉ live ∧ 32 ≤ r.index.val

namespace HoldingAll

variable {s s₁ : Lowering} {live : RegSet} {temp : Reg} {temps : List Reg}

theorem of_hands (hhands : RegFile.Hands s.registers temps s₁.registers) (hnodup : temps.Nodup)
    (hfree : ∀ r ∈ temps, r ∉ s.registers.live ∧ 32 ≤ r.index.val) :
    HoldingAll temps s.registers.live s₁ := by
  refine ⟨hnodup, ?_, ?_⟩
  · intro r hr
    exact (hhands.mem_live r).2 (Or.inr hr)
  · intro r hr
    exact ⟨(hhands.mem_live r).2 (Or.inl hr), hfree r hr⟩

/-- Once it is filled, the first temporary is one of the registers to be kept. -/
theorem insert (h : HoldingAll (temp :: temps) live s) (hregisters : s₁.registers = s.registers) :
    HoldingAll temps (live.insert temp) s₁ := by
  rcases List.nodup_cons.1 h.nodup with ⟨hnotin, hnodup⟩
  refine ⟨hnodup, ?_, ?_⟩
  · intro r hr
    rw [hregisters]
    rcases RegSet.mem_insert.1 hr with rfl | hr
    · exact (h.free r (by simp)).1
    · exact h.kept r hr
  · intro r hr
    rcases h.free r (by simp [hr]) with ⟨hheld, hfresh, hindex⟩
    rw [hregisters]
    refine ⟨hheld, ?_, hindex⟩
    intro hmem
    rcases RegSet.mem_insert.1 hmem with rfl | hmem
    · exact hnotin hr
    · exact hfresh hmem

end HoldingAll

/-- The arguments are computed one after the other, each into its temporary.  The temporaries
filled before are live, so they keep their words. -/
theorem passArguments_runs :
    ∀ {ts : List Term} {temps : List Reg} {live : RegSet}, (∀ t ∈ ts, E.Simulates t) →
      ts.length = temps.length → ∀ {s s' : Lowering} {u : Unit}, WellBound E s →
      HoldingAll temps live s →
      passArguments (ts.map fun t => t.part.source) temps s = (.ok u, s') →
      ∃ code, Added code s s' ∧
        ∀ {start calls m₀ m}, Embedded E.code start code → E.Arrives live m₀ start calls m →
          ∃ ws calls' m', EvaluatesAll E.machine E.regs E.code s.scopes calls ts ws calls' ∧
            E.Arrives live m₀ (start + code.length) calls' m' ∧ temps.map m'.regs = ws
  | [], [], _, _, _, s, s', u, _, _, h => by
      cases h
      refine ⟨[], Added.refl s, ?_⟩
      intro start calls m₀ m _ harrives
      exact ⟨[], calls, m, EvaluatesAll.nil, harrives, rfl⟩
  | t :: ts, temp :: temps, live, hsim, hlength, s, s', u, hs, hholding, h => by
      obtain ⟨source, s₁, hsource, h⟩ := bind_eq_ok.1 h
      obtain ⟨_, s₂, hput, hrest⟩ := bind_eq_ok.1 h
      obtain ⟨code₁, hadded₁, hcomputes⟩ := (hsim t (by simp)).source s source s₁ hs hsource
      obtain ⟨hafterPut, code₂, hadded₂, hputs⟩ := putInto_runs (E := E) hput
      have hafter : After t.declared s s₂ := (after_source hsource).trans hafterPut
      obtain ⟨-, hfresh, hindex⟩ := hholding.free temp (by simp)
      obtain ⟨code₃, hadded₃, hloop⟩ :=
        passArguments_runs (fun t' ht' => hsim t' (by simp [ht'])) (by simpa using hlength)
          (hs.after hafter) (hholding.insert hafter.registers) hrest
      refine ⟨_, (hadded₁.trans hadded₂).trans hadded₃, ?_⟩
      intro start calls m₀ m hcode harrives
      obtain ⟨calls₁, m₁, hvalue, harrives₁⟩ :=
        hcomputes start calls m hcode.left.left harrives.ready
      obtain ⟨m₂, harrives₂, hregs₂⟩ :=
        hputs hcode.left.right (harrives.trans (harrives₁.mono hholding.kept)) hfresh hindex
      rw [Nat.add_assoc, ← List.length_append] at harrives₂
      obtain ⟨ws, calls', m', hvalues, harrives', hwords⟩ :=
        hloop hcode.right (Arrives.refl harrives₂.ready)
      rw [hafter.scopes] at hvalues
      -- The other arguments leave the first temporary alone.
      have htemp : m'.regs temp = E.sourceWord m₁.regs source := by
        have hne : temp ≠ Reg.result := by
          rintro rfl
          exact absurd hindex (by decide)
        rw [harrives'.kept.regs temp (Or.inl (RegSet.mem_insert.2 (Or.inl rfl))) hne, hregs₂,
          Function.update_self]
      have hsub : ∀ r ∈ live, r ∈ live.insert temp := fun r hr => RegSet.mem_insert.2 (Or.inr hr)
      refine ⟨_ :: ws, calls', m', EvaluatesAll.cons hvalue hvalues, ?_, ?_⟩
      · rw [List.length_append, ← Nat.add_assoc]
        exact harrives₂.trans (harrives'.mono hsub)
      · rw [List.map_cons, hwords, htemp]

/-! ## Calls of a value -/

/-- The code between two states evaluates `ts` and calls `f` with the values. -/
def RunsCall (E : Setting W) (live : RegSet) (f : Value) (ts : List Term) (s s' : Lowering) :
    Prop :=
  ∃ code, Added code s s' ∧
    ∀ {start calls m₀ m}, Embedded E.code start code → E.Arrives live m₀ start calls m →
      ∃ ws calls' m', EvaluatesAll E.machine E.regs E.code s.scopes calls ts ws calls' ∧
        E.Arrives live m₀ (start + code.length)
          (calls' ++ [⟨f.word E.machine m.regs, ws⟩]) m' ∧
        m'.regs Reg.result = E.machine.result calls'.length

theorem RunsCall.around {live : RegSet} {f : Value} {ts : List Term} {s s₁ s₂ s' : Lowering}
    (h : E.RunsCall live f ts s₁ s₂) (haround : Around s s₁ s₂ s') : E.RunsCall live f ts s s' := by
  obtain ⟨code, hadded, hruns⟩ := h
  rw [haround.scopes] at hruns
  exact ⟨code, hadded.around haround, hruns⟩

/-- The arguments and the call, for a callee that the arguments leave alone. -/
theorem passAndInvoke_runs {live live' : RegSet} {f : Value} {ts : List Term} {temps : List Reg}
    {s s' : Lowering} {v : Value} (hvars : ∀ r ∈ E.vars, r ∈ live)
    (hsub : ∀ r ∈ live, r ∈ live') (hf : ∀ r, f = .register r → r ∈ live' ∧ 32 ≤ r.index.val)
    (hsim : ∀ t ∈ ts, E.Simulates t) (hlength : ts.length = temps.length)
    (hs : WellBound E s) (hholding : HoldingAll temps live' s)
    (h : (passArguments (ts.map fun t => t.part.source) temps >>= fun _ =>
      invoke (live.inter RegSet.callerSaved) (Operand.ofValue f) temps ts.length) s = (.ok v, s')) :
    v = .register Reg.result ∧ E.RunsCall live f ts s s' := by
  obtain ⟨_, s₁, hpass, hinvoke⟩ := bind_eq_ok.1 h
  obtain ⟨code₁, hadded₁, hpasses⟩ := passArguments_runs hsim hlength hs hholding hpass
  rw [hlength] at hinvoke
  obtain ⟨hv, code₂, hadded₂, hinvokes⟩ :=
    invoke_runs hvars (fun r hr => (hf r hr).2) (fun r hr => (hholding.free r hr).2.2) hinvoke
  refine ⟨hv, _, hadded₁.trans hadded₂, ?_⟩
  intro start calls m₀ m hcode harrives
  obtain ⟨ws, calls', m₁, hvalues, harrives₁, hwords⟩ :=
    hpasses hcode.left (Arrives.refl harrives.ready)
  obtain ⟨m', harrives', hresult⟩ :=
    hinvokes hcode.right (harrives.trans (harrives₁.mono hsub))
  have hcallee : f.word E.machine m₁.regs = f.word E.machine m.regs := by
    cases f with
    | label l => rfl
    | register r =>
        obtain ⟨hr, hindex⟩ := hf r rfl
        refine harrives₁.kept.regs r (Or.inl hr) ?_
        rintro rfl
        exact absurd hindex (by decide)
  rw [hcallee, hwords, Nat.add_assoc, ← List.length_append] at harrives'
  exact ⟨ws, calls', m', hvalues, harrives', hresult⟩

/-- A callee in a register that is free again: it is copied before the arguments are computed, and
the copy is kept meanwhile. -/
theorem copyAndCall_runs {live : RegSet} {r target : Reg} {ts : List Term} {temps : List Reg}
    {s s' : Lowering} {v : Value} (hvars : ∀ r ∈ E.vars, r ∈ live)
    (hsim : ∀ t ∈ ts, E.Simulates t) (hlength : ts.length = temps.length) (hs : WellBound E s)
    (hholding : HoldingAll (target :: temps) live s)
    (h : (putInto target (.value (.register r)) >>= fun _ =>
      passArguments (ts.map fun t => t.part.source) temps >>= fun _ =>
      invoke (live.inter RegSet.callerSaved) (.register target) temps ts.length) s = (.ok v, s')) :
    v = .register Reg.result ∧ E.RunsCall live (.register r) ts s s' := by
  obtain ⟨_, s₁, hput, hrest⟩ := bind_eq_ok.1 h
  obtain ⟨hafter, code₁, hadded₁, hputs⟩ := putInto_runs (E := E) hput
  -- The copy of the callee counts as live while the arguments are evaluated.
  obtain ⟨-, hfresh, hindex⟩ := hholding.free target (by simp)
  have hcallee : ∀ q, Value.register target = .register q →
      q ∈ live.insert target ∧ 32 ≤ q.index.val := by
    intro q hq
    cases hq
    exact ⟨RegSet.mem_insert.2 (Or.inl rfl), hindex⟩
  obtain ⟨hv, code₂, hadded₂, hruns⟩ :=
    passAndInvoke_runs hvars (fun q hq => RegSet.mem_insert.2 (Or.inr hq)) hcallee hsim hlength
      (hs.after hafter) (hholding.insert hafter.registers) hrest
  refine ⟨hv, _, hadded₁.trans hadded₂, ?_⟩
  intro start calls m₀ m hcode harrives
  obtain ⟨m₁, harrives₁, hregs₁⟩ := hputs hcode.left harrives hfresh hindex
  obtain ⟨ws, calls', m', hvalues, harrives', hresult⟩ := hruns hcode.right harrives₁
  have hword : Value.word E.machine m₁.regs (.register target) = m.regs r := by
    change m₁.regs target = _
    rw [hregs₁, Function.update_self]
    rfl
  rw [hafter.scopes, Scopes.declare_nil] at hvalues
  rw [hword, Nat.add_assoc, ← List.length_append] at harrives'
  exact ⟨ws, calls', m', hvalues, harrives', hresult⟩

/-- The code of a call once the value of the callee is there. -/
theorem callValue_runs {f : Value} {ts : List Term} {s s' : Lowering} {v : Value}
    (hsim : ∀ t ∈ ts, E.Simulates t) (hs : WellBound E s)
    (h : callValue (s.registers.live.inter RegSet.callerSaved) (ts.map fun t => t.part.source) f s
      = (.ok v, s')) :
    v = .register Reg.result ∧ E.RunsCall s.registers.live f ts s s' := by
  cases f with
  | label l =>
      rw [callValue, List.length_map] at h
      obtain ⟨temps, s₁, s₂, haround, hbody, hhands, hlength, hnodup, hfree⟩ :=
        withTemporaries_eq_ok h
      have hnone : ∀ r, Value.label l = .register r →
          r ∈ s.registers.live ∧ 32 ≤ r.index.val := by
        intro r hr
        cases hr
      obtain ⟨hv, hruns⟩ :=
        passAndInvoke_runs (f := .label l) hs.live (fun _ hr => hr) hnone hsim hlength.symm
          (hs.reserved haround.scopes hhands) (HoldingAll.of_hands hhands hnodup hfree) hbody
      exact ⟨hv, hruns.around haround⟩
  | register r =>
      rw [callValue, List.length_map] at h
      obtain ⟨regs, s₁, s₂, haround, hbody, hhands, hlength, hnodup, hfree⟩ :=
        withTemporaries_eq_ok h
      cases regs with
      | nil => cases hlength
      | cons target temps =>
          -- The first temporary takes the callee, the others the arguments.
          obtain ⟨hv, hruns⟩ :=
            copyAndCall_runs hs.live hsim (Nat.succ.inj hlength).symm
              (hs.reserved haround.scopes hhands) (HoldingAll.of_hands hhands hnodup hfree) hbody
          exact ⟨hv, hruns.around haround⟩

/-- A call computes the answer of the machine to the callee and the values of the arguments. -/
theorem lowered_call {t : Term} {ts : List Term} (hcallee : t.IsCallee) (ht : E.Simulates t)
    (hts : ∀ t' ∈ ts, E.Simulates t') :
    E.Lowered (call t.part.code (ts.map fun t' => t'.part.source))
      (fun v regs => v.word E.machine regs) (E.meaning (.list (t :: ts))) := by
  intro s v s' hs hrun
  rw [call_eq] at hrun
  split at hrun
  · cases hrun
  · obtain ⟨_, _, hget, hrun⟩ := bind_eq_ok.1 hrun
    cases hget
    obtain ⟨f, s₁, hcode, hcall⟩ := bind_eq_ok.1 hrun
    obtain ⟨code₁, hadded₁, hcomputes⟩ := ht s f s₁ hs hcode
    have hafter := after_code hcode
    rw [← hafter.registers] at hcall
    obtain ⟨rfl, code₂, hadded₂, hruns⟩ := callValue_runs hts (hs.after hafter) hcall
    rw [hafter.registers] at hruns
    refine ⟨_, hadded₁.trans hadded₂, ?_⟩
    intro start calls m hembedded hready
    obtain ⟨calls₁, m₁, hvalue, harrives₁⟩ := hcomputes start calls m hembedded.left hready
    obtain ⟨ws, calls', m', hvalues, harrives', hresult⟩ := hruns hembedded.right harrives₁
    rw [hafter.scopes] at hvalues
    rw [Nat.add_assoc, ← List.length_append] at harrives'
    refine ⟨_, m', ?_, harrives'⟩
    change Evaluates _ _ _ _ _ _ (m'.regs Reg.result) _
    rw [hresult]
    exact Evaluates.call hcallee hvalue hvalues

end Setting
end RegisterLisp
