import RegisterLisp.Number.Shortest

/-!
# Number text

Two layouts of the shortest decimal.

- `Number.plain` writes all numbers positionally, with a point only where there are decimals.
  It is the layout of expressions.
- `Number.immediate` always shows a point or an exponent, so that the text is a float for the
  assembler as well.  It is positional from `1e-4` up to but not including `1e16`.
-/

namespace RegisterLisp
namespace Number

def zeros (n : Nat) : List Char :=
  List.replicate n '0'

namespace Decimal

def chars (d : Decimal) : List Char :=
  Nat.toDigits 10 d.digits

/-- The number of digits before the point, negative if zeros follow the point. -/
def point (d : Decimal) : Int :=
  d.chars.length + d.exponent

/-- Positional layout; an integer is followed by `tail`. -/
def positional (d : Decimal) (tail : List Char) : List Char :=
  if 0 ≤ d.exponent then d.chars ++ zeros d.exponent.toNat ++ tail
  else if 0 < d.point then
    d.chars.take d.point.toNat ++ '.' :: d.chars.drop d.point.toNat
  else '0' :: '.' :: zeros (-d.point).toNat ++ d.chars

/-- Layout with one digit before the point and an exponent. -/
def scientific (d : Decimal) : List Char :=
  let mantissa :=
    match d.chars with
    | first :: second :: rest => first :: '.' :: second :: rest
    | digits => digits
  mantissa ++ 'e' :: (toString (d.point - 1)).toList

end Decimal

/-- Puts the sign of `x` before the text of its magnitude. -/
def signed (x : Float) (magnitude : List Char) : String :=
  String.ofList (if isNegative x then '-' :: magnitude else magnitude)

def plain (x : Float) : String :=
  if x.isNaN then "NaN"
  else if x.isInf then signed x "inf".toList
  else if x == 0.0 then signed x ['0']
  else signed x ((shortest x).positional [])

def immediate (x : Float) : String :=
  if x.isNaN then "NaN"
  else if x.isInf then signed x "inf".toList
  else if x == 0.0 then signed x "0.0".toList
  else
    let d := shortest x
    if -4 < d.point && d.point ≤ 16 then signed x (d.positional ['.', '0'])
    else signed x d.scientific

end Number
end RegisterLisp
