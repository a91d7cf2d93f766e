/-!
# Numbers as machine words

The numbers of the language are binary64 floats.  The bitwise operators see them as signed 64-bit
words, and the remainder needs the floor of a quotient.  This module holds these views:

- `Number.toWord` cuts off the fraction, clamps to the range of a word and sends a NaN to zero,
- `Number.ofWord` is the nearest float, ties to even,
- `Number.floor` is the greatest integer not above the number.

All three are computed through the logical model of `Float`, so they can be evaluated in proofs.
-/

namespace RegisterLisp
namespace Number

/-- The integer part as a word, clamped at both ends of the range; a NaN is zero. -/
def toWord (x : Float) : Int64 :=
  x.toModel.toInt64

def ofWord (n : Int64) : Float :=
  .ofModel (.ofInt64 n)

/-- From this magnitude on, every finite float is an integer: `2 ^ 52`. -/
def integral : Float := 4503599627370496.0

/-- The greatest integer not above `x`.  Zeros keep their sign, and infinities and NaN are
returned as they are. -/
def floor (x : Float) : Float :=
  if x == 0.0 then x
  else if x < integral && -integral < x then
    let whole := ofWord (toWord x)
    if x < whole then whole - 1.0 else whole
  else x

def floorMod (x y : Float) : Float :=
  x - y * floor (x / y)

/-- Shifts a word by a signed count, to the left for a positive one and arithmetically to the right
for a negative one.  A count of 64 or more in either direction has no result. -/
def shiftWord? (value count : Int64) : Option Int64 :=
  if 64 ≤ count.toInt.natAbs then none
  else if 0 < count then some (value <<< count)
  else if count < 0 then some (value >>> (-count))
  else some value

end Number
end RegisterLisp
