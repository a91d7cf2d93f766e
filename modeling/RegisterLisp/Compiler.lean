import RegisterLisp.Lowering
import RegisterLisp.Term.Normal
import RegisterLisp.Term.Reading

/-!
# The compiler

From source text to normal forms, and from there to assembly.  Each stage is tried only if the one
before it succeeded for the whole program.
-/

namespace RegisterLisp

/-- The words for the errors of the reader.  Nothing but messages depends on them, so they are left
open here, and everything that prints a message takes them as a parameter. -/
class ReadWording where
  describe : ReadError → String

inductive CompileError
  | read (cause : ReadError)
  | form (cause : FormError)
  | lower (cause : LowerError)
  deriving DecidableEq

namespace CompileError

def message [ReadWording] : CompileError → String
  | .read cause => ReadWording.describe cause
  | .form cause => cause.message
  | .lower cause => cause.message

/-- The text of the error behind the error. -/
def source? : CompileError → Option String
  | .lower cause => cause.source?
  | _ => none

end CompileError

/-- A result and the log of the work on it. -/
structure Outcome (α : Type) where
  result : Except CompileError α
  log : List Record := []

namespace Compiler

def normalize (program : List Term) : Outcome (List Term) :=
  { result := (Term.normalizeAll program).mapError .form
    log := Term.programRecords program }

/-- Generates the assembly of a program in normal form. -/
def assemble (program : List Term) : Outcome String :=
  match Lowering.lowerProgram (Term.parts program) {} with
  | (.ok _, s) => ⟨.ok s.listing.text, s.log.reverse⟩
  | (.error cause, s) => ⟨.error (.lower cause), s.log.reverse⟩

def read (text : String) : Except CompileError (List Term) :=
  (Term.readAll text).mapError .read

def fold (text : String) : Outcome (List Term) :=
  match read text with
  | .ok program => normalize program
  | .error cause => ⟨.error cause, []⟩

def compile (text : String) : Outcome String :=
  let folded := fold text
  match folded.result with
  | .ok program =>
      let assembled := assemble program
      { assembled with log := folded.log ++ assembled.log }
  | .error cause => ⟨.error cause, folded.log⟩

end Compiler
end RegisterLisp
