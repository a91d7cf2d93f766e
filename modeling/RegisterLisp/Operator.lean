import RegisterLisp.Number.Word
import RegisterLisp.Symbol

/-!
# Operators

Names with a built-in meaning.  Every operator has a name in source text, a number of operands it
accepts and, for those that combine two numbers at a time, its arithmetic.
-/

namespace RegisterLisp

inductive Operator
  | add | sub | mul | div | rem
  | and | or | not
  | bitAnd | bitOr | bitXor | bitNot | shift
  | gt | ge | lt | le | eq | ne
  deriving DecidableEq, Repr

/-- How many operands an operator accepts. -/
inductive Arity
  | any
  | atLeastOne
  | exactlyOne
  | exactlyTwo
  deriving DecidableEq, Repr

namespace Arity

def admits : Arity → Nat → Bool
  | .any, _ => true
  | .atLeastOne, n => 1 ≤ n
  | .exactlyOne, n => n == 1
  | .exactlyTwo, n => n == 2

def render : Arity → String
  | .any => "any"
  | .atLeastOne => "at least 1"
  | .exactlyOne => "exactly 1"
  | .exactlyTwo => "exactly 2"

end Arity

namespace Operator

def all : List Operator :=
  [.add, .sub, .mul, .div, .rem, .and, .or, .not, .bitAnd, .bitOr, .bitXor, .bitNot, .shift,
    .gt, .ge, .lt, .le, .eq, .ne]

def name : Operator → String
  | .add => "+"
  | .sub => "-"
  | .mul => "*"
  | .div => "/"
  | .rem => "remainder"
  | .and => "and"
  | .or => "or"
  | .not => "not"
  | .bitAnd => "bitwise-and"
  | .bitOr => "bitwise-or"
  | .bitXor => "bitwise-xor"
  | .bitNot => "bitwise-not"
  | .shift => "bitwise-shift"
  | .gt => ">"
  | .ge => ">="
  | .lt => "<"
  | .le => "<="
  | .eq => "eq"
  | .ne => "ne"

def ofSymbol? (s : Symbol) : Option Operator :=
  all.find? fun op => op.name == s.name

def isCommutative : Operator → Bool
  | .add | .mul | .bitAnd | .bitOr | .bitXor => true
  | _ => false

def isBinary : Operator → Bool
  | .rem | .shift | .gt | .ge | .lt | .le | .eq | .ne => true
  | _ => false

/-- Whether there is always one operand.  A difference may have a single operand, too. -/
def isUnary : Operator → Bool
  | .not | .bitNot => true
  | _ => false

/-- The number of operands accepted in a form that is folded. -/
def arity (op : Operator) : Arity :=
  if op == .and || op == .or then .any
  else if op.isUnary then .exactlyOne
  else if op.isBinary then .exactlyTwo
  else .atLeastOne

/-- The value of the form without operands, for the operators that have one. -/
def unit? : Operator → Option Float
  | .add => some 0.0
  | .mul => some 1.0
  | _ => none

/-- Lifts an operation on words to numbers. -/
def onWords (f : Int64 → Int64 → Int64) (x y : Float) : Float :=
  Number.ofWord (f (Number.toWord x) (Number.toWord y))

/-- How an operator combines its operands from the left, two numbers at a time. -/
def accumulator? : Operator → Option (Float → Float → Float)
  | .add => some (· + ·)
  | .sub => some (· - ·)
  | .mul => some (· * ·)
  | .div => some (· / ·)
  | .bitAnd => some (onWords (· &&& ·))
  | .bitOr => some (onWords (· ||| ·))
  | .bitXor => some (onWords (· ^^^ ·))
  | _ => none

end Operator
end RegisterLisp
