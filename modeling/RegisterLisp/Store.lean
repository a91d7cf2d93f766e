import RegisterLisp.Shape

/-!
# Stores

A store holds forms as cells that refer to each other, so that a form can be shared by several
others, be part of itself, and be changed in place.  Every cell has a shape and a link to the cell
that holds it, if that is known.

`Store.unfold` follows references down to a given depth and yields a plain term.  On a form without
cycles a depth of the number of cells is always enough; what lies deeper shows as the empty list.
-/

namespace RegisterLisp

/-- A part of a form in a store: an atom, or the number of a cell. -/
inductive Ref
  | atom (value : Atom)
  | cell (id : Nat)
  deriving DecidableEq

namespace Ref

instance : Inhabited Ref := ⟨.cell 0⟩

def cell? : Ref → Option Nat
  | .cell id => some id
  | .atom _ => none

end Ref

namespace Shape

/-- The parts that are cells, in order. -/
def cells (s : Shape Ref) : List Nat :=
  s.parts.filterMap Ref.cell?

end Shape

structure Cell where
  shape : Shape Ref
  parent : Option Nat := none

/-- Cells, numbered in the order they were made. -/
structure Store where
  cells : Array Cell := #[]

namespace Store

instance : Inhabited Store := ⟨{}⟩

def size (s : Store) : Nat :=
  s.cells.size

/-- The shape of a cell.  A number without a cell is taken for an empty list. -/
def shape (s : Store) (id : Nat) : Shape Ref :=
  match s.cells[id]? with
  | some c => c.shape
  | none => .list []

def parent? (s : Store) (id : Nat) : Option Nat :=
  s.cells[id]?.bind Cell.parent

def alloc (s : Store) (shape : Shape Ref) : Ref × Store :=
  (.cell s.size, { cells := s.cells.push { shape } })

def setShape (s : Store) (id : Nat) (shape : Shape Ref) : Store :=
  { cells := s.cells.modify id fun c => { c with shape } }

def setParent (s : Store) (id : Nat) (parent : Option Nat) : Store :=
  { cells := s.cells.modify id fun c => { c with parent } }

/-- One layer of the form that a reference stands for. -/
def view (s : Store) : Ref → View Ref
  | .atom a => .atom a
  | .cell id => .shape (s.shape id)

/-- The place of a cell among the cells that its parent holds. -/
def position? (s : Store) (id : Nat) : Option Nat :=
  (s.parent? id).bind fun p => (s.shape p).cells.findIdx? (· == id)

/-! ## From terms to cells -/

mutual

/-- Puts a term into the store, a new cell for every part that is not an atom. -/
def add (s : Store) : Term → Ref × Store
  | .atom a => (.atom a, s)
  | .list items =>
      let (items, s) := addAll s items
      s.alloc (.list items)
  | .quoted inner =>
      let (inner, s) := add s inner
      s.alloc (.quoted inner)
  | .func params body =>
      let (body, s) := addAll s body
      s.alloc (.func params body)
  | .typeDef name fields ctor methods =>
      let (ctor, s) := add s ctor
      let (methods, s) := addMethods s methods
      s.alloc (.typeDef name fields ctor methods)

def addAll (s : Store) : List Term → List Ref × Store
  | [] => ([], s)
  | t :: ts =>
      let (r, s) := add s t
      let (rs, s) := addAll s ts
      (r :: rs, s)

def addMethods (s : Store) : List (Symbol × Term) → List (Symbol × Ref) × Store
  | [] => ([], s)
  | (name, t) :: ts =>
      let (r, s) := add s t
      let (rs, s) := addMethods s ts
      ((name, r) :: rs, s)

end

/-! ## From cells to terms -/

/-- The term that a reference stands for, down to a given depth. -/
def unfold (s : Store) : Nat → Ref → Term
  | _, .atom a => .atom a
  | 0, .cell _ => .list []
  | depth + 1, .cell id => ((s.shape id).map (unfold s depth)).toTerm

def render (s : Store) (r : Ref) : String :=
  (s.unfold s.size r).render

/-! ## Comparing forms -/

/-- Structural equality with numbers compared as numbers, down to a given depth. -/
def sameTo (s : Store) : Nat → Ref → Ref → Bool
  | _, .atom a, .atom b => a.same b
  | depth + 1, .cell a, .cell b =>
      match s.shape a, s.shape b with
      | .list xs, .list ys => xs.length == ys.length && (xs.zip ys).all fun (x, y) =>
          sameTo s depth x y
      | .quoted x, .quoted y => sameTo s depth x y
      | .func ps xs, .func qs ys =>
          ps == qs && xs.length == ys.length && (xs.zip ys).all fun (x, y) => sameTo s depth x y
      | .typeDef n fs c ms, .typeDef n' fs' c' ms' =>
          n == n' && fs == fs' && sameTo s depth c c' && ms.length == ms'.length &&
            (ms.zip ms').all fun (x, y) => x.1 == y.1 && sameTo s depth x.2 y.2
      | _, _ => false
  | _, _, _ => false

/-- Structural equality with numbers compared as numbers.  A comparison that ends never meets the
same two cells twice on its way down, so its depth is at most the number of pairs of cells. -/
def same (s : Store) (a b : Ref) : Bool :=
  s.sameTo (s.size * s.size + 1) a b

/-! ## Walking through cells -/

/-- The cells reachable from a list of cells that have not been met, in depth-first preorder.  Cells
met are kept last first.  The fuel bounds the number of cells looked at. -/
def walk (s : Store) : Nat → List Nat → List Nat → List Nat
  | 0, _, met => met
  | _, [], met => met
  | fuel + 1, id :: rest, met =>
      if met.contains id then walk s fuel rest met
      else walk s fuel ((s.shape id).cells ++ rest) (id :: met)

def edges (s : Store) : Nat :=
  s.cells.foldl (fun n c => n + c.shape.cells.length) 0

/-- All cells reachable from the given references, each once, in depth-first preorder. -/
def preorder (s : Store) (roots : List Ref) : List Nat :=
  let start := roots.filterMap Ref.cell?
  (s.walk (start.length + s.edges + 1) start []).reverse

end Store
end RegisterLisp
