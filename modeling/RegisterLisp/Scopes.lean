import RegisterLisp.Label
import RegisterLisp.Register
import RegisterLisp.Symbol

/-!
# Scopes

What symbols stand for while code is generated.  Local bindings live in scopes, innermost first,
around one outermost scope that is never left.  A scope can be a boundary: look-up does not go
beyond it, unless asked to, so the body of a function does not see the registers of the code around
it.  Globals are seen from everywhere where no local binding hides them.
-/

namespace RegisterLisp

/-- What a symbol stands for, and what generated code leaves as its result. -/
inductive Value
  | register (r : Reg)
  | label (l : Label)
  deriving DecidableEq

namespace Value

def render : Value → String
  | .register r => r.name
  | .label l => l.text

end Value

/-- Bindings of names, latest first. -/
abbrev Bindings (α : Type) := List (Symbol × α)

structure Scope where
  bindings : Bindings Value := []
  boundary : Bool := false
  deriving DecidableEq

structure Scopes where
  /-- The scopes entered, innermost first. -/
  inner : List Scope := []
  /-- The bindings of the outermost scope. -/
  outermost : Bindings Value := []
  globals : Bindings Label := []
  deriving DecidableEq

namespace Scopes

instance : Inhabited Scopes := ⟨{}⟩

/-- The number of scopes, the outermost one included. -/
def depth (s : Scopes) : Nat :=
  s.inner.length + 1

def enter (s : Scopes) (boundary : Bool) : Scopes :=
  { s with inner := { boundary } :: s.inner }

/-- Leaves the innermost scope; the outermost one cannot be left. -/
def leave (s : Scopes) : Scopes :=
  { s with inner := s.inner.tail }

def bind (s : Scopes) (name : Symbol) (value : Value) : Scopes :=
  match s.inner with
  | [] => { s with outermost := (name, value) :: s.outermost }
  | scope :: rest =>
      { s with inner := { scope with bindings := (name, value) :: scope.bindings } :: rest }

def bindGlobal (s : Scopes) (name : Symbol) (label : Label) : Scopes :=
  { s with globals := (name, label) :: s.globals }

def global? (s : Scopes) (name : Symbol) : Option Label :=
  s.globals.lookup name

/-- The local binding of a symbol that is seen from inside the given scopes, of which the last
stands in the outermost scope. -/
def local? (name : Symbol) (skip : Bool) (outermost : Bindings Value) : List Scope → Option Value
  | [] => outermost.lookup name
  | scope :: rest =>
      match scope.bindings.lookup name with
      | some value => some value
      | none => if scope.boundary && !skip then none else local? name skip outermost rest

/-- What a symbol stands for.  With `skip`, boundaries are ignored. -/
def lookup (s : Scopes) (name : Symbol) (skip : Bool) : Option Value :=
  match local? name skip s.outermost s.inner with
  | some value => some value
  | none => (s.global? name).map .label

end Scopes
end RegisterLisp
