/-!
# Registers and sets of registers

The machine has 256 registers.

| registers | use | saved by |
|-----------|-----|----------|
| r0 – r2 | instruction, frame and stack pointer | reserved |
| r3 | return value | reserved |
| r4 – r11 | arguments | the caller |
| r12 – r31 | non-volatile values | the callee |
| r32 – r255 | temporaries | the caller |

A set of registers is a vector of 256 bits.
-/

namespace RegisterLisp

structure Reg where
  index : Fin 256
  deriving DecidableEq, Repr

namespace Reg

instance : Inhabited Reg := ⟨⟨0⟩⟩

def name (r : Reg) : String :=
  "r" ++ toString r.index.val

def all : List Reg :=
  (List.finRange 256).map Reg.mk

/-- Holds the result of a call. -/
def result : Reg := ⟨3⟩

def firstArgument : Nat := 4

/-- How many arguments a call can pass. -/
def argumentCount : Nat := 8

def firstTemporary : Nat := 32

end Reg

structure RegSet where
  bits : BitVec 256
  deriving DecidableEq

namespace RegSet

def empty : RegSet := ⟨0⟩

instance : Inhabited RegSet := ⟨empty⟩

def contains (s : RegSet) (r : Reg) : Bool :=
  s.bits.getLsb r.index

instance : Membership Reg RegSet := ⟨fun s r => s.contains r = true⟩

def insert (s : RegSet) (r : Reg) : RegSet :=
  ⟨s.bits ||| BitVec.twoPow 256 r.index⟩

def union (s t : RegSet) : RegSet :=
  ⟨s.bits ||| t.bits⟩

def inter (s t : RegSet) : RegSet :=
  ⟨s.bits &&& t.bits⟩

def isEmpty (s : RegSet) : Bool :=
  s == empty

def ofList (rs : List Reg) : RegSet :=
  rs.foldl insert empty

/-- The registers of a set in ascending order. -/
def toList (s : RegSet) : List Reg :=
  Reg.all.filter s.contains

/-- The registers from `start` up to but not including `stop`. -/
def range (start stop : Nat) : RegSet :=
  ofList (Reg.all.filter fun r => start ≤ r.index.val && r.index.val < stop)

def arguments (n : Nat) : RegSet :=
  range Reg.firstArgument (Reg.firstArgument + n)

/-- The registers that are never handed out. -/
def reserved : RegSet :=
  range 0 Reg.firstArgument

/-- The registers that a call may change. -/
def callerSaved : RegSet :=
  (arguments Reg.argumentCount).union (range Reg.firstTemporary 256)

/-- The text of a set as an operand. -/
def render (s : RegSet) : String :=
  "[" ++ " ".intercalate (s.toList.map Reg.name) ++ "]"

end RegSet
end RegisterLisp
