import RegisterLisp.Reduction.Access

/-!
# Folding operators

An operator form with literal operands is simplified as far as this cannot change what the program
does:

- `and` and `or` look at literals only up to the first operand that is not one, since an operand
  before them could still fail,
- commutative operators combine all their literals into one at the end,
- `-` and `/` combine the literals they start with; a literal zero divisor is left to the machine,
- the remainder and the shift are computed if both operands are literals,
- comparisons are left as they are.

A form with a wrong number of operands is an error.  `reduceOperator` declines if the result would
be equal to what it started from.
-/

namespace RegisterLisp
namespace Reduction

variable {ρ : Type}

/-- The form with the given operands: `empty` if there are none, and the operand itself if there is
one. -/
def rebuild (a : Access ρ) (head : ρ) (operands : List ρ) (empty : Atom) : Replacement ρ :=
  match operands with
  | [] => .part (a.atom empty)
  | [operand] => .part operand
  | _ => .list (head :: operands)

def leadingLiterals (a : Access ρ) (operands : List ρ) : List Atom :=
  ((operands.map a.view).takeWhile View.isLiteral).filterMap View.atom?

def isBool (a : Access ρ) (value : Bool) (r : ρ) : Bool :=
  match a.view r with
  | .atom (.bool b) => b == value
  | _ => false

/-- A false literal decides a conjunction; literals `true` are dropped. -/
def reduceAnd (a : Access ρ) (head : ρ) (operands : List ρ) : Replacement ρ :=
  if (leadingLiterals a operands).any fun l => l.truth? == some false then
    .part (a.atom (.bool false))
  else rebuild a head (operands.filter fun r => !isBool a true r) (.bool true)

/-- The first true literal decides a disjunction; literals `false` are dropped. -/
def reduceOr (a : Access ρ) (head : ρ) (operands : List ρ) : Replacement ρ :=
  match (leadingLiterals a operands).find? fun l => l.truth? == some true with
  | some l => .part (a.atom l)
  | none => rebuild a head (operands.filter fun r => !isBool a false r) (.bool false)

/-- Combines all literal numbers into one, which becomes the last operand. -/
def mergeLiterals (a : Access ρ) (f : Float → Float → Float) (head : ρ) (operands : List ρ) :
    Option (Replacement ρ) :=
  match operands.filterMap a.number? with
  | x :: y :: rest =>
      let value : Atom := .number ((y :: rest).foldl f x)
      let others := operands.filter fun r => (a.number? r).isNone
      some (rebuild a head (others ++ [a.atom value]) value)
  | _ => none

def leadingNumbers (a : Access ρ) : List ρ → List Float
  | [] => []
  | r :: rest =>
      match a.number? r with
      | some x => x :: leadingNumbers a rest
      | none => []

/-- Combines the literal numbers that the operands start with, keeping those from the first that
`stop` holds of; the first operand is never stopped at. -/
def mergeLeading (a : Access ρ) (f : Float → Float → Float) (stop : Float → Bool) (head : ρ)
    (operands : List ρ) : Option (Replacement ρ) :=
  match leadingNumbers a operands with
  | [] => none
  | x :: rest =>
      match rest.takeWhile fun y => !stop y with
      | [] => none
      | run =>
          let value : Atom := .number (run.foldl f x)
          some (rebuild a head (a.atom value :: operands.drop (run.length + 1)) value)

def binaryValue? (op : Operator) (x y : Float) : Option Float :=
  match op with
  | .shift => (Number.shiftWord? (Number.toWord x) (Number.toWord y)).map Number.ofWord
  | .rem => if y == 0.0 then none else some (Number.floorMod x y)
  | _ => none

def unaryValue? (op : Operator) (operand : Atom) : Option Atom :=
  match op with
  | .not => operand.truth?.map fun b => .bool !b
  | .sub => operand.number?.map fun x => .number (-x)
  | .bitNot => operand.number?.map fun x => .number (Number.ofWord (~~~ Number.toWord x))
  | _ => none

/-- The simplified form of an operator with an accepted number of operands, if there is one. -/
def simplified? (a : Access ρ) (op : Operator) (head : ρ) (operands : List ρ) :
    Option (Replacement ρ) :=
  match op, operands with
  | .and, _ => some (reduceAnd a head operands)
  | .or, _ => some (reduceOr a head operands)
  | .sub, [operand] | .not, [operand] | .bitNot, [operand] =>
      ((a.view operand).atom?.bind (unaryValue? op)).map fun v => .part (a.atom v)
  | .sub, _ => mergeLeading a (· - ·) (fun _ => false) head operands
  | .div, _ => mergeLeading a (· / ·) (· == 0.0) head operands
  | .shift, [x, y] | .rem, [x, y] =>
      (a.number? x).bind fun x => (a.number? y).bind fun y =>
        (binaryValue? op x y).map fun v => .part (a.atom (.number v))
  | _, _ =>
      if op.isCommutative then op.accumulator?.bind fun f => mergeLiterals a f head operands
      else none

/-- Whether a replacement is equal, as programs see it, to the list it would replace. -/
def isUnchanged (a : Access ρ) (items : List ρ) : Replacement ρ → Bool
  | .part r =>
      match a.view r with
      | .shape (.list others) => a.sameAll others items
      | _ => false
  | .list others => a.sameAll others items
  | _ => false

def reduceOperator (a : Access ρ) (items : List ρ) :
    Except FormError (Option (Replacement ρ)) :=
  match items with
  | [] => .ok none
  | head :: operands =>
      match (a.symbol? head).bind Operator.ofSymbol? with
      | none => .ok none
      | some op =>
          match operands, op.unit? with
          | [], some unit => .ok (some (.part (a.atom (.number unit))))
          | _, _ =>
              if op.arity.admits operands.length then
                .ok ((simplified? a op head operands).filter fun r => !isUnchanged a items r)
              else .error (.arity op operands.length)

end Reduction
end RegisterLisp
