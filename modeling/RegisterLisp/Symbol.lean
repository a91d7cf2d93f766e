/-!
# Symbols

A symbol is a name.  A few names are keywords: the reduction rules and the lowering give them a
meaning of their own, but as data they are symbols like any other.
-/

namespace RegisterLisp

structure Symbol where
  name : String
  deriving DecidableEq, Repr, Inhabited

namespace Symbol

/-- Symbols are ordered by the code points of their names. -/
def le (a b : Symbol) : Bool :=
  !(b.name < a.name)

def func : Symbol := ⟨"func"⟩

def defType : Symbol := ⟨"def-type"⟩

def define : Symbol := ⟨"define"⟩

def nop : Symbol := ⟨"nop"⟩

/-- The receiver, first parameter of every method. -/
def this : Symbol := ⟨"this"⟩

/-- The predicate that goes with a type name. -/
def predicate (s : Symbol) : Symbol := ⟨s.name ++ "?"⟩

/-- The global name of a method of a type. -/
def method (type name : Symbol) : Symbol := ⟨type.name ++ "." ++ name.name⟩

/-- The first name in a list that occurred before. -/
def repeated? : List Symbol → List Symbol → Option Symbol
  | _, [] => none
  | seen, s :: rest => if s ∈ seen then some s else repeated? (s :: seen) rest

end Symbol
end RegisterLisp
