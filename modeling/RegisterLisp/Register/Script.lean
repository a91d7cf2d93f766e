import RegisterLisp.Register.File

/-!
# Register scripts

A script is a program of register operations with nested scopes.  Running it on a register file
reports what every step did and what was live after it.  A step that fails ends the list of steps
it stands in and makes the scope around it fail as well, unless the step is guarded.
-/

namespace RegisterLisp

inductive RegAction
  | allocate (n : Nat) (start : Option Nat) (region : Region)
  | isLive (r : Reg)
  | fail
  deriving DecidableEq

/-- How a scope reserves its registers. -/
inductive RegOpening
  | reserve (request : Reservation)
  | arguments (count : Nat)
  deriving DecidableEq

inductive RegStep
  | act (action : RegAction) (guarded : Bool)
  | scope (opening : RegOpening) (body : List RegStep) (guarded : Bool)

inductive RegFailure
  | alloc (cause : AllocError)
  /-- The script asked for it. -/
  | stopped
  deriving DecidableEq

/-- What an operation without a body answers. -/
inductive RegAnswer
  | registers (rs : List Reg)
  | live (isLive : Bool)
  deriving DecidableEq

/-- What a step did, and the register file after it. -/
inductive RegReport
  | act (outcome : Except RegFailure RegAnswer) (after : RegFile)
  /-- The entry is missing if the scope could not be opened. -/
  | scope (failure : Option RegFailure) (entry : Option (List Reg × RegFile))
      (body : List RegReport) (after : RegFile)

/-- The result of running several steps. -/
structure RegRun where
  reports : List RegReport
  failure : Option RegFailure
  file : RegFile

namespace RegOpening

/-- What the scope asks for.  Too many arguments are refused before anything is saved. -/
def request : RegOpening → Except AllocError Reservation
  | .reserve request => .ok request
  | .arguments count => Reservation.arguments count

end RegOpening

namespace RegAction

def run (f : RegFile) : RegAction → Except RegFailure RegAnswer × RegFile
  | .allocate n start region =>
      match f.allocate n start region with
      | (.ok rs, after) => (.ok (.registers rs), after)
      | (.error cause, after) => (.error (.alloc cause), after)
  | .isLive r => (.ok (.live (f.live.contains r)), f)
  | .fail => (.error .stopped, f)

end RegAction

namespace RegReport

def failure? : RegReport → Option RegFailure
  | .act (.error cause) _ => some cause
  | .act (.ok _) _ => none
  | .scope failure _ _ _ => failure

def file : RegReport → RegFile
  | .act _ after => after
  | .scope _ _ _ after => after

end RegReport

namespace RegStep

/-- Whether a failure of the step is kept from the steps around it. -/
def guarded : RegStep → Bool
  | .act _ g => g
  | .scope _ _ g => g

mutual

def run (f : RegFile) : RegStep → RegReport
  | .act action _ =>
      let (outcome, after) := action.run f
      .act outcome after
  | .scope opening body _ =>
      match opening.request with
      | .error cause => .scope (some (.alloc cause)) none [] f
      | .ok request =>
          match f.save.reserve request with
          | (.ok rs, inside) =>
              let r := runAll inside body
              .scope r.failure (some (rs, inside)) r.reports r.file.restore
          | (.error cause, inside) => .scope (some (.alloc cause)) none [] inside.restore

/-- Runs steps in order up to the first failure that is not guarded. -/
def runAll (f : RegFile) : List RegStep → RegRun
  | [] => ⟨[], none, f⟩
  | step :: rest =>
      let report := run f step
      match report.failure?, step.guarded with
      | some cause, false => ⟨[report], some cause, report.file⟩
      | _, _ =>
          let r := runAll report.file rest
          { r with reports := report :: r.reports }

end

end RegStep
end RegisterLisp
