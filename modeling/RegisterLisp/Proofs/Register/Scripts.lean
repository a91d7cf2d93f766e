import RegisterLisp.Proofs.Register.Sets
import RegisterLisp.Register.Script

/-!
# Register scopes over whole runs

A script may reserve registers, open scopes inside of scopes and fail at any point.  Whatever it
does, the register file stays `Nested`: r0 – r3 are live, and the set that is live in a scope holds
the set of every scope around it.

One step only adds to the live set of the scope it is run in (`Grows`), and a scope as a whole adds
nothing.  `Tells` goes through the reports on a run, those on the bodies of scopes included, and
finds each step with the register file before it; so `scopes_nest_in_every_run` speaks about every
step that was run.
-/

namespace RegisterLisp

instance : HasSubset RegSet :=
  ⟨fun s t => ∀ r, r ∈ s → r ∈ t⟩

namespace RegFile

variable {f g h : RegFile}

/-! ## Nested register files -/

def layers (f : RegFile) : List RegSet :=
  f.saved.reverse ++ [f.live]

/-- The reserved registers are live, and each scope holds what is live in the scopes around it. -/
structure Nested (f : RegFile) : Prop where
  reserved : ∀ r : Reg, r.index.val < Reg.firstArgument → r ∈ f.live
  increasing : f.layers.Pairwise (· ⊆ ·)

/-- What is live in a scope is live in the scopes inside of it. -/
theorem pairwise_layers :
    f.layers.Pairwise (· ⊆ ·) ↔
      f.saved.reverse.Pairwise (· ⊆ ·) ∧ ∀ s ∈ f.saved, s ⊆ f.live := by
  simp [layers, List.pairwise_append]

theorem nested_new : Nested {} := by
  refine ⟨fun r hr => ?_, by simp [layers]⟩
  exact RegSet.mem_range.2 ⟨Nat.zero_le _, hr⟩

/-- Opening a scope keeps the layers in order. -/
theorem Nested.save (hf : f.Nested) : f.save.Nested := by
  obtain ⟨hsaved, hlive⟩ := pairwise_layers.1 hf.increasing
  refine ⟨hf.reserved, pairwise_layers.2 ⟨?_, ?_⟩⟩
  · -- What was live is now the last of the saved sets.
    simpa [layers, RegFile.save] using hf.increasing
  · intro s hs
    rcases List.mem_cons.1 hs with rfl | hs
    · exact fun _ hr => hr
    · exact hlive s hs

/-! ## Steps inside of a scope -/

structure Grows (f g : RegFile) : Prop where
  saved : g.saved = f.saved
  live : f.live ⊆ g.live

theorem Grows.refl (f : RegFile) : Grows f f :=
  ⟨rfl, fun _ hr => hr⟩

theorem Grows.trans (hfg : Grows f g) (hgh : Grows g h) : Grows f h :=
  ⟨hgh.saved.trans hfg.saved, fun r hr => hgh.live r (hfg.live r hr)⟩

/-- Handing out more in the innermost scope keeps the layers in order. -/
theorem Nested.grows (hf : f.Nested) (hfg : Grows f g) : g.Nested := by
  obtain ⟨hsaved, hlive⟩ := pairwise_layers.1 hf.increasing
  refine ⟨fun r hr => hfg.live r (hf.reserved r hr), pairwise_layers.2 ?_⟩
  rw [hfg.saved]
  exact ⟨hsaved, fun s hs r hr => hfg.live r (hlive s hs r hr)⟩

/-- A scope is left with the register file that it was opened in. -/
theorem Grows.restore_eq (hfg : Grows f.save g) : g.restore = f := by
  unfold restore
  rw [hfg.saved]
  rfl

/-- An allocation adds to what is live. -/
theorem allocate_grows {n : Nat} {start : Option Nat} {region : Region} {rs : List Reg}
    (h : f.allocate n start region = (.ok rs, g)) : Grows f g := by
  obtain ⟨hsaved, hlive, -⟩ := allocate_eq_ok h
  exact ⟨hsaved, fun r hr => (hlive r).2 (Or.inr hr)⟩

/-- So does a reservation. -/
theorem reserve_grows {request : Reservation} {rs : List Reg}
    (h : f.reserve request = (.ok rs, g)) : Grows f g := by
  cases request with
  | count n start region => exact allocate_grows h
  | set registers =>
      cases h
      exact ⟨rfl, fun r hr => RegSet.mem_union.2 (Or.inl hr)⟩

end RegFile

open RegFile (Grows Nested)

/-- An operation never takes anything away, whether it succeeds or not. -/
theorem RegAction.run_grows (f : RegFile) (action : RegAction) : Grows f (action.run f).2 := by
  cases action with
  | allocate n start region =>
      rw [RegAction.run]
      rcases h : f.allocate n start region with ⟨cause | rs, after⟩
      · rw [RegFile.allocate_eq_error h]
        exact Grows.refl f
      · exact RegFile.allocate_grows h
  | isLive r => exact Grows.refl f
  | fail => exact Grows.refl f

/-- A scope can be opened: what it asks for is not refused, and the registers are handed out. -/
def RegOpening.Enters (f : RegFile) (opening : RegOpening) (rs : List Reg) (inside : RegFile) :
    Prop :=
  ∃ request, opening.request = .ok request ∧ f.save.reserve request = (.ok rs, inside)

/-- Inside of a scope more may be live than around it. -/
theorem RegOpening.Enters.grows {f inside : RegFile} {opening : RegOpening} {rs : List Reg}
    (h : opening.Enters f rs inside) : Grows f.save inside := by
  obtain ⟨request, -, hreserve⟩ := h
  exact RegFile.reserve_grows hreserve

namespace RegStep

/-! ## Runs -/

/-- A run of several steps ends at the first failure that is not guarded, or goes on. -/
theorem runAll_cons (f : RegFile) (step : RegStep) (steps : List RegStep) :
    (∃ cause, runAll f (step :: steps) = ⟨[run f step], some cause, (run f step).file⟩) ∨
      runAll f (step :: steps) =
        { runAll (run f step).file steps with
          reports := run f step :: (runAll (run f step).file steps).reports } := by
  rw [runAll]
  split
  · rename_i cause _ _
    exact Or.inl ⟨cause, rfl⟩
  · exact Or.inr rfl

/-- A scope is opened, its body is run, and it is left; or it cannot be opened and is left at once,
with the register file that was there before. -/
theorem run_scope (f : RegFile) (opening : RegOpening) (body : List RegStep) (guarded : Bool) :
    (∃ rs inside, opening.Enters f rs inside ∧
      run f (.scope opening body guarded) =
        .scope (runAll inside body).failure (some (rs, inside)) (runAll inside body).reports
          (runAll inside body).file.restore) ∨
    ∃ cause, run f (.scope opening body guarded) = .scope (some (.alloc cause)) none [] f := by
  rw [run]
  cases hrequest : opening.request with
  | error cause => exact Or.inr ⟨cause, rfl⟩
  | ok request =>
      rcases hreserve : f.save.reserve request with ⟨cause | rs, inside⟩
      · have hleft : inside.restore = f := RegFile.restore_of_reserve_error hreserve
        simp only [hreserve, hleft]
        exact Or.inr ⟨cause, rfl⟩
      · simp only [hreserve]
        exact Or.inl ⟨rs, inside, ⟨request, hrequest, hreserve⟩, rfl⟩

mutual

/-- One step adds to what is live.  A scope takes back all that is reserved in it. -/
theorem run_grows : ∀ (f : RegFile) (step : RegStep), Grows f (run f step).file
  | f, .act action guarded => action.run_grows f
  | f, .scope opening body guarded => by
      rcases run_scope f opening body guarded with ⟨rs, inside, henters, hrun⟩ | ⟨cause, hrun⟩
      · have hbody := henters.grows.trans (runAll_grows inside body)
        rw [hrun, RegReport.file, hbody.restore_eq]
        exact Grows.refl f
      · rw [hrun]
        exact Grows.refl f

/-- So do steps in sequence, up to the first that fails. -/
theorem runAll_grows : ∀ (f : RegFile) (steps : List RegStep), Grows f (runAll f steps).file
  | f, [] => Grows.refl f
  | f, step :: steps => by
      have hstep := run_grows f step
      rcases runAll_cons f step steps with ⟨cause, heq⟩ | heq
      · rw [heq]
        exact hstep
      · rw [heq]
        exact hstep.trans (runAll_grows (run f step).file steps)

end

/-- After a scope the register file is the one before it, whether the scope could be opened or not
and whether its body succeeded or not. -/
theorem file_run_scope (f : RegFile) (opening : RegOpening) (body : List RegStep)
    (guarded : Bool) : (run f (.scope opening body guarded)).file = f := by
  rcases run_scope f opening body guarded with ⟨rs, inside, henters, hrun⟩ | ⟨cause, hrun⟩
  · rw [hrun]
    exact (henters.grows.trans (runAll_grows inside body)).restore_eq
  · rw [hrun]
    rfl

/-! ## Reports -/

/-- Reports on steps that were run from `f` tell, directly or in the report on the body of a scope,
that a step was run from some register file with some report. -/
inductive Tells : RegFile → List RegStep → List RegReport →
    RegFile → RegStep → RegReport → Prop
  | first {f : RegFile} {step : RegStep} {steps : List RegStep} {report : RegReport}
      {reports : List RegReport} : Tells f (step :: steps) (report :: reports) f step report
  | later {f f' : RegFile} {step step' : RegStep} {steps : List RegStep}
      {report report' : RegReport} {reports : List RegReport}
      (h : Tells report.file steps reports f' step' report') :
      Tells f (step :: steps) (report :: reports) f' step' report'
  | inside {f f' inside after : RegFile} {step' : RegStep} {opening : RegOpening}
      {body steps : List RegStep} {guarded : Bool} {failure : Option RegFailure}
      {rs : List Reg} {report' : RegReport} {inner reports : List RegReport}
      (h : Tells inside body inner f' step' report') :
      Tells f (.scope opening body guarded :: steps)
        (.scope failure (some (rs, inside)) inner after :: reports) f' step' report'

/-- The report on a scope that was opened is about a run of its body. -/
theorem run_scope_eq {f inside after : RegFile} {opening : RegOpening} {body : List RegStep}
    {guarded : Bool} {failure : Option RegFailure} {rs : List Reg} {inner : List RegReport}
    (h : run f (.scope opening body guarded) = .scope failure (some (rs, inside)) inner after) :
    opening.Enters f rs inside ∧ inner = (runAll inside body).reports := by
  rcases run_scope f opening body guarded with ⟨rs', inside', henters, hrun⟩ | ⟨cause, hrun⟩
  · rw [hrun] at h
    cases h
    exact ⟨henters, rfl⟩
  · rw [hrun] at h
    cases h

/-- A scope that can be opened reports on its body. -/
theorem run_scope_of_enters {f inside : RegFile} {opening : RegOpening} {rs : List Reg}
    (h : opening.Enters f rs inside) (body : List RegStep) (guarded : Bool) :
    run f (.scope opening body guarded) =
      .scope (runAll inside body).failure (some (rs, inside)) (runAll inside body).reports
        (runAll inside body).file.restore := by
  obtain ⟨request, hrequest, hreserve⟩ := h
  rw [run, hrequest]
  dsimp only
  rw [hreserve]

/-- What was run first is reported first, and what follows was run from the file after it. -/
theorem reports_cons {f : RegFile} {step : RegStep} {steps : List RegStep} {report : RegReport}
    {reports : List RegReport} (h : report :: reports = (runAll f (step :: steps)).reports) :
    report = run f step ∧
      (reports = [] ∨ reports = (runAll (run f step).file steps).reports) := by
  rcases runAll_cons f step steps with ⟨cause, hrun⟩ | hrun
  · rw [hrun] at h
    cases h
    exact ⟨rfl, Or.inl rfl⟩
  · rw [hrun] at h
    cases h
    exact ⟨rfl, Or.inr rfl⟩

/-- Whatever the reports on a run tell was run, and from a nested register file if the run was
started from one. -/
theorem Tells.run_eq {f f' : RegFile} {steps : List RegStep} {step : RegStep}
    {reports : List RegReport} {report : RegReport} (h : Tells f steps reports f' step report)
    (hf : f.Nested) (hreports : reports = (runAll f steps).reports) :
    report = run f' step ∧ f'.Nested := by
  induction h with
  | first => exact ⟨(reports_cons hreports).1, hf⟩
  | later h ih =>
      obtain ⟨rfl, hrest | hrest⟩ := reports_cons hreports
      · subst hrest
        cases h
      · exact ih (hf.grows (run_grows _ _)) hrest
  | inside _ ih =>
      obtain ⟨henter, hinner⟩ := run_scope_eq (reports_cons hreports).1.symm
      exact ih (hf.save.grows henter.grows) hinner

section Reported

variable {f f' : RegFile} {step step' : RegStep} {steps : List RegStep} {report : RegReport}

/-! ### Every step that is run is reported -/

/-- The first step is told of. -/
theorem Tells.of_first : Tells f (step :: steps) (runAll f (step :: steps)).reports f step
    (run f step) := by
  rcases runAll_cons f step steps with ⟨cause, hrun⟩ | hrun <;> rw [hrun] <;> exact .first

theorem Tells.of_later (hgoes : (run f step).failure? = none ∨ step.guarded = true)
    (h : Tells (run f step).file steps (runAll (run f step).file steps).reports f' step' report) :
    Tells f (step :: steps) (runAll f (step :: steps)).reports f' step' report := by
  rw [runAll]
  split
  · rename_i hfailure hguarded
    simp [hfailure, hguarded] at hgoes
  · exact .later h

/-- What happens inside of a scope is told in the report on it. -/
theorem Tells.of_inside {inside : RegFile} {opening : RegOpening} {body : List RegStep}
    {guarded : Bool} {rs : List Reg} (henter : opening.Enters f rs inside)
    (h : Tells inside body (runAll inside body).reports f' step' report) :
    Tells f (.scope opening body guarded :: steps)
      (runAll f (.scope opening body guarded :: steps)).reports f' step' report := by
  have hrun := run_scope_of_enters henter body guarded
  rcases runAll_cons f (.scope opening body guarded) steps with ⟨cause, hall⟩ | hall <;>
    rw [hall, hrun] <;> exact .inside h

end Reported

/-- In every run of a script on a new register file, scopes are nested before and after every step
and inside of every scope; a scope leaves behind what was live before it; and the registers that a
scope asks for by number are distinct and were free. -/
theorem scopes_nest_in_every_run (steps : List RegStep) :
    (runAll {} steps).file.Nested ∧
      ∀ f step report, Tells {} steps (runAll {} steps).reports f step report →
        f.Nested ∧ report.file.Nested ∧
          ∀ opening body guarded, step = .scope opening body guarded →
            report.file.live = f.live ∧ report.file.depth = f.depth ∧
              ∀ failure rs inside inner after,
                report = .scope failure (some (rs, inside)) inner after →
                  inside.Nested ∧ ∀ n start region, opening = .reserve (.count n start region) →
                    rs.length = n ∧ rs.Nodup ∧ ∀ r ∈ rs, r ∉ f.live := by
  refine ⟨RegFile.nested_new.grows (runAll_grows _ _), ?_⟩
  intro f step report htells
  obtain ⟨hreport, hf⟩ := htells.run_eq RegFile.nested_new rfl
  subst hreport
  refine ⟨hf, hf.grows (run_grows f step), ?_⟩
  rintro opening body guarded rfl
  rw [file_run_scope]
  refine ⟨rfl, rfl, ?_⟩
  intro failure rs inside inner after heq
  obtain ⟨henter, -⟩ := run_scope_eq heq
  refine ⟨hf.save.grows henter.grows, ?_⟩
  rintro n start region rfl
  obtain ⟨request, hrequest, hreserve⟩ := henter
  cases hrequest
  obtain ⟨-, -, hlength, hnodup, hfree⟩ := RegFile.allocate_eq_ok hreserve
  exact ⟨hlength, hnodup, fun r hr => (hfree r hr).2⟩

def refusedScope : RegStep :=
  .scope (.arguments 9) [] true

/-- A scope that takes registers whether they are free or not, and fails. -/
def failingScope : RegStep :=
  .scope (.reserve (.set (RegSet.range 3 34))) [.act (.allocate 300 none .volatile) false] false

/-- A scope in which another one is refused, and a third one fails. -/
def temporaryScope : RegStep :=
  .scope (.reserve (.temporaries 2)) [refusedScope, failingScope] true

theorem scopes_nest_in_temporaryScope :
    (∃ f, Tells {} [temporaryScope] (runAll {} [temporaryScope]).reports f failingScope
        (run f failingScope) ∧
      (run f failingScope).failure? = some (.alloc (.exhausted 300 222)) ∧
      f.Nested ∧ f.depth = 1 ∧
      (run f failingScope).file.live = f.live ∧ (run f failingScope).file.depth = 1) ∧
    ∃ failure rs inside inner after,
      Tells {} [temporaryScope] (runAll {} [temporaryScope]).reports {} temporaryScope
        (.scope failure (some (rs, inside)) inner after) ∧
      inside.Nested ∧ rs.length = 2 ∧ rs.Nodup ∧ ∀ r ∈ rs, r ∉ ({} : RegFile).live := by
  have hall := (scopes_nest_in_every_run [temporaryScope]).2
  have henter : (RegOpening.reserve (.temporaries 2)).Enters {} [⟨32⟩, ⟨33⟩]
      ⟨RegSet.ofList [⟨0⟩, ⟨1⟩, ⟨2⟩, ⟨3⟩, ⟨32⟩, ⟨33⟩], [RegSet.reserved]⟩ :=
    ⟨_, rfl, by decide +kernel⟩
  constructor
  · refine ⟨_, .of_inside henter (.of_later (Or.inr rfl) .of_first), by decide +kernel, ?_⟩
    obtain ⟨hf, -, hscope⟩ := hall _ _ _ (.of_inside henter (.of_later (Or.inr rfl) .of_first))
    obtain ⟨hlive, hdepth, -⟩ := hscope _ _ _ rfl
    exact ⟨hf, by decide +kernel, hlive, hdepth.trans (by decide +kernel)⟩
  · have htells := @Tells.of_first {} temporaryScope []
    rw [temporaryScope, run_scope_of_enters henter] at htells
    obtain ⟨-, -, hscope⟩ := hall _ _ _ htells
    obtain ⟨hinside, hregisters⟩ := (hscope _ _ _ rfl).2.2 _ _ _ _ _ rfl
    exact ⟨_, _, _, _, _, htells, hinside, hregisters 2 none .volatile rfl⟩

end RegStep
end RegisterLisp
