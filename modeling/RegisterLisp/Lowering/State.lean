import RegisterLisp.Assembly.Listing
import RegisterLisp.Log
import RegisterLisp.Register.File

/-!
# The state of lowering

Lowering turns terms into assembly.  Its state is the scopes, the register file, the listing and
the log.  A step may fail, and what it did to the state before that stays; the combinators below
take back what only holds inside of them, whether the step in them fails or not.
-/

namespace RegisterLisp

/-- A number of operands that is refused, and what is accepted instead. -/
structure ArityMismatch where
  expected : Arity
  found : Nat
  deriving DecidableEq

/-- Why no code can be generated. -/
inductive LowerError
  | unbound (name : Symbol)
  | unsupported (form : String)
  | arity (operator : Operator) (mismatch : ArityMismatch)
  | registers (cause : AllocError)
  | sink (cause : SinkError)
  deriving DecidableEq

namespace LowerError

def message : LowerError → String
  | .unbound name => "unbound symbol `" ++ name.name ++ "`"
  | .unsupported form => "cannot generate code for `" ++ form ++ "`"
  | .arity op mismatch =>
      "`" ++ op.name ++ "` expects " ++ mismatch.expected.render ++ " operand(s), found "
        ++ toString mismatch.found
  | .registers cause => cause.message
  | .sink cause => "failed to write assembly: " ++ cause.message

def source? : LowerError → Option String
  | .registers cause => some cause.message
  | .sink cause => some cause.message
  | _ => none

end LowerError

structure Lowering where
  scopes : Scopes := {}
  registers : RegFile := {}
  listing : Listing := {}
  /-- The log, latest record first. -/
  log : List Record := []

instance : Inhabited Lowering := ⟨{}⟩

abbrev LowerM := ExceptT LowerError (StateM Lowering)

namespace Lowering

def tell (r : Record) : LowerM Unit :=
  modify fun s => { s with log := r :: s.log }

/-! ## Writing -/

/-- Runs a step of writing on the listing. -/
def writing {α : Type} (step : Listing.WriteM α) : LowerM α := fun s =>
  match step s.listing with
  | (.ok a, listing) => (.ok a, { s with listing })
  | (.error cause, listing) => (.error (.sink cause), { s with listing })

def emit (opcode : Opcode) (operands : List Operand) : LowerM Unit :=
  writing (Listing.write (.instruction opcode operands))

def defineLabel (l : Label) : LowerM Unit :=
  writing (Listing.write (.label l))

def comment (text : String) : LowerM Unit :=
  writing (Listing.comment text)

def newLabel (stem : String) : LowerM Label :=
  writing (Listing.newLabel stem)

/-! ## Registers -/

/-- What the log says about registers handed to a scope. -/
def scopeRecord (depth : Nat) (registers : List Reg) : Record :=
  ⟨.trace, .registers, Thunk.mk fun _ =>
    "scope " ++ toString depth ++ ": reserved ["
      ++ ", ".intercalate (registers.map fun r => Text.quote r.name) ++ "]"⟩

/-- Opens a scope and runs a step with the registers that are reserved in it.  The scope is still
open afterwards. -/
def inScope {α : Type} (request : Reservation) (body : List Reg → LowerM α) : LowerM α := fun s =>
  match s.registers.save.reserve request with
  | (.ok regs, registers) =>
      body regs { s with registers, log := scopeRecord registers.depth regs :: s.log }
  | (.error cause, registers) => (.error (.registers cause), { s with registers })

/-- Runs a step with reserved registers.  The scope is left whether the reservation and the step
succeed or not. -/
def withRegisters {α : Type} (request : Reservation) (body : List Reg → LowerM α) :
    LowerM α := fun s =>
  let (result, s) := inScope request body s
  (result, { s with registers := s.registers.restore })

/-- Runs a step with the registers of `n` arguments reserved. -/
def withArguments {α : Type} (n : Nat) (body : List Reg → LowerM α) : LowerM α :=
  match Reservation.arguments n with
  | .error cause => throw (.registers cause)
  | .ok request => withRegisters request body

def withTemporary {α : Type} (body : Reg → LowerM α) : LowerM α :=
  withRegisters (.temporaries 1) fun regs =>
    match regs with
    | out :: _ => body out
    | [] => throw (.registers (.exhausted 1 0))

/-! ## Scopes -/

def bind (name : Symbol) (value : Value) : LowerM Unit :=
  modify fun s => { s with scopes := s.scopes.bind name value }

def bindGlobal (name : Symbol) (label : Label) : LowerM Unit :=
  modify fun s => { s with scopes := s.scopes.bindGlobal name label }

/-- Runs a step inside a function: behind a boundary of scopes, and indented. -/
def insideFunction {α : Type} (step : LowerM α) : LowerM α := fun s =>
  let (result, s) :=
    step { s with scopes := s.scopes.enter true, listing := s.listing.increaseIndent }
  (result, { s with scopes := s.scopes.leave, listing := s.listing.decreaseIndent })

end Lowering
end RegisterLisp
