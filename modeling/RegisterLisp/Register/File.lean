import RegisterLisp.Register

/-!
# The register file

`RegFile` records which registers are live, and for every open scope what was live before it.
Opening a scope saves the live set and reserves registers; closing it brings the saved set back.
Both happen in pairs, also when the reservation fails.

An operation that may fail returns the register file in either case.  That a failure leaves it as
it was is not built into the types (`RegFile.allocate_eq_error`, `RegFile.reserve_eq_error`).
-/

namespace RegisterLisp

/-- A part of the register file that registers are handed out from. -/
inductive Region
  /-- Temporaries, lost in a call. -/
  | volatile
  /-- Registers below the temporaries. -/
  | nonvolatile
  deriving DecidableEq, Repr

namespace Region

/-- Where allocation starts unless told otherwise. -/
def first : Region → Nat
  | .volatile => Reg.firstTemporary
  | .nonvolatile => Reg.firstArgument

def limit : Region → Nat
  | .volatile => 256
  | .nonvolatile => Reg.firstTemporary

end Region

/-- Why registers cannot be handed out. -/
inductive AllocError
  | exhausted (requested available : Nat)
  | badStart (start limit : Nat)
  | tooManyArguments (count : Nat)
  deriving DecidableEq, Repr

namespace AllocError

def message : AllocError → String
  | .exhausted requested available =>
      "all valid registers are reserved: requested " ++ toString requested ++ ", "
        ++ toString available ++ " free"
  | .badStart start limit =>
      "allocation cannot start at r" ++ toString start ++ ": the region ends at r" ++ toString limit
  | .tooManyArguments count =>
      toString count ++ " arguments exceed the 8 argument registers"

end AllocError

inductive Reservation
  /-- As many free registers of a region, from a start on. -/
  | count (n : Nat) (start : Option Nat) (region : Region)
  /-- Exactly these registers, free or not. -/
  | set (registers : RegSet)
  deriving DecidableEq

namespace Reservation

def temporaries (n : Nat) : Reservation :=
  .count n none .volatile

def arguments (n : Nat) : Except AllocError Reservation :=
  if Reg.argumentCount < n then .error (.tooManyArguments n)
  else .ok (.set (RegSet.arguments n))

end Reservation

structure RegFile where
  live : RegSet := RegSet.reserved
  /-- What was live before each open scope, innermost first. -/
  saved : List RegSet := []
  deriving DecidableEq

namespace RegFile

instance : Inhabited RegFile := ⟨{}⟩

def depth (f : RegFile) : Nat :=
  f.saved.length

/-- The registers from `low` up to but not including `high` that are not live, in ascending
order. -/
def free (f : RegFile) (low high : Nat) : List Reg :=
  Reg.all.filter fun r => low ≤ r.index.val && r.index.val < high && !f.live.contains r

/-- Hands out the lowest free registers of a region and makes them live. -/
def allocate (f : RegFile) (n : Nat) (start : Option Nat) (region : Region) :
    Except AllocError (List Reg) × RegFile :=
  let low := start.getD region.first
  if low < Reg.firstArgument ∨ region.limit ≤ low then (.error (.badStart low region.limit), f)
  else
    let registers := (f.free low region.limit).take n
    if registers.length < n then (.error (.exhausted n registers.length), f)
    else (.ok registers, { f with live := registers.foldl RegSet.insert f.live })

/-- Makes the registers of a reservation live. -/
def reserve (f : RegFile) : Reservation → Except AllocError (List Reg) × RegFile
  | .count n start region => f.allocate n start region
  | .set registers => (.ok registers.toList, { f with live := f.live.union registers })

def save (f : RegFile) : RegFile :=
  { f with saved := f.live :: f.saved }

/-- Goes back to what was live when the innermost scope was opened. -/
def restore (f : RegFile) : RegFile :=
  match f.saved with
  | [] => f
  | live :: saved => { live, saved }

end RegFile
end RegisterLisp
