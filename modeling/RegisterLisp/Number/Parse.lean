import RegisterLisp.Number.Word

/-!
# Reading numbers

The text of a number is an optional sign followed by one of

- digits with an optional fraction and an optional decimal exponent, where digits may be missing
  on one side of the point but not on both,
- `inf`, `infinity` or `nan` in any mix of cases.

The value is the nearest float, ties to even; what is too large becomes an infinity.
-/

namespace RegisterLisp
namespace Number

/-- A decimal numeral `coefficient * 10 ^ exponent`. -/
structure Numeral where
  coefficient : Nat
  exponent : Int
  deriving DecidableEq, Repr

namespace Numeral

def toFloat (n : Numeral) : Float :=
  Float.ofScientific n.coefficient (n.exponent < 0) n.exponent.natAbs

end Numeral

/-- The value of a string of ASCII digits, read in base ten. -/
def digitsValue (digits : List Char) : Nat :=
  digits.foldl (fun value c => 10 * value + (c.toNat - '0'.toNat)) 0

def allDigits? (cs : List Char) : Option Nat :=
  if cs.isEmpty || !cs.all Char.isDigit then none else some (digitsValue cs)

/-- Reads what may follow the digits of a numeral: nothing, or a decimal exponent. -/
def exponent? : List Char → Option Int
  | [] => some 0
  | mark :: cs =>
      if mark = 'e' ∨ mark = 'E' then
        match cs with
        | '-' :: ds => (allDigits? ds).map fun n => -(n : Int)
        | '+' :: ds => (allDigits? ds).map fun n => (n : Int)
        | ds => (allDigits? ds).map fun n => (n : Int)
      else none

/-- The fraction digits after the integer digits, and what follows them. -/
def fraction : List Char → List Char × List Char
  | '.' :: cs => cs.span Char.isDigit
  | cs => ([], cs)

/-- Reads an unsigned decimal numeral to the end of the text. -/
def numeral? (cs : List Char) : Option Numeral :=
  let (whole, afterWhole) := cs.span Char.isDigit
  let (decimals, rest) := fraction afterWhole
  if whole.isEmpty && decimals.isEmpty then none
  else
    (exponent? rest).map fun e =>
      { coefficient := digitsValue (whole ++ decimals), exponent := e - decimals.length }

def unsigned? (cs : List Char) : Option Float :=
  let name := String.ofList (cs.map Char.toLower)
  if name = "inf" ∨ name = "infinity" then some (1.0 / 0.0)
  else if name = "nan" then some (0.0 / 0.0)
  else (numeral? cs).map Numeral.toFloat

def ofChars? : List Char → Option Float
  | '-' :: cs => (unsigned? cs).map fun x => -x
  | '+' :: cs => unsigned? cs
  | cs => unsigned? cs

def parse? (text : String) : Option Float :=
  ofChars? text.toList

end Number
end RegisterLisp
