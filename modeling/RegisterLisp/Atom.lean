import RegisterLisp.Number.Format
import RegisterLisp.Symbol
import RegisterLisp.Text.Quoted

/-!
# Atoms

Numbers, strings, booleans and symbols.  All atoms but symbols are literals.  `Atom.same` is the
equality that programs see: it compares numbers as numbers, so a NaN differs from itself and the
two zeros are equal.  Equality of Lean compares bit patterns.
-/

namespace RegisterLisp

/-- A piece of a program without parts. -/
inductive Atom
  | number (value : Float)
  | string (text : String)
  | bool (value : Bool)
  | symbol (name : Symbol)
  deriving DecidableEq

namespace Atom

def number? : Atom → Option Float
  | .number x => some x
  | _ => none

def symbol? : Atom → Option Symbol
  | .symbol s => some s
  | _ => none

/-- Everything but a symbol is a literal. -/
def isLiteral : Atom → Bool
  | .symbol _ => false
  | _ => true

/-- Whether a literal counts as true: all do but `false` and the zeros.  A symbol has no truth value
of its own. -/
def truth? : Atom → Option Bool
  | .bool b => some b
  | .number x => some (x != 0.0)
  | .string _ => some true
  | .symbol _ => none

/-- Equality as programs see it. -/
def same : Atom → Atom → Bool
  | .number x, .number y => x == y
  | .string s, .string t => s == t
  | .bool a, .bool b => a == b
  | .symbol s, .symbol t => s == t
  | _, _ => false

def render : Atom → String
  | .number x => Number.plain x
  | .string s => Text.quote s
  | .bool b => if b then "true" else "false"
  | .symbol s => s.name

end Atom
end RegisterLisp
