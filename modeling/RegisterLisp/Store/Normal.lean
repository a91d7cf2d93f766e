import RegisterLisp.Reduction.Rules
import RegisterLisp.Store

/-!
# Normalizing in a store

The same rules as for terms, on cells that may be shared or lie on cycles.  Every cell is taken up
at most once: when it is met again its result is used, or, while it is still being worked on, the
cell itself.  The parts of a cell are replaced in place once all of them have been reduced.

After a success the links to parents are set anew for everything reachable from the result.

The recursion goes down one cell at a time.  A cell taken up was either there at the start, or was
made by expanding a type definition that was; so the depth is at most twice the number of cells at
the start, and the fuel given by `Store.normalize` is enough.
-/

namespace RegisterLisp
namespace Store

def access (s : Store) : Access Ref where
  view := s.view
  atom := Ref.atom
  same := s.same
  render := s.render

/-- What is known about a cell that has been met. -/
inductive Visit
  /-- The cell is being worked on. -/
  | pending
  /-- The cell has been reduced. -/
  | done (result : Ref)
  deriving DecidableEq

structure Work where
  store : Store
  /-- What has become known about cells, latest first. -/
  visits : List (Nat × Visit) := []
  /-- The log, latest record first. -/
  log : List Record := []

/-- Steps of normalizing: they may fail, keep what they have done, and may run out of fuel. -/
abbrev WorkM := ExceptT FormError (StateT Work Option)

namespace Work

def visit? (w : Work) (id : Nat) : Option Visit :=
  w.visits.lookup id

end Work

def note (id : Nat) (v : Visit) : WorkM Unit :=
  modify fun w => { w with visits := (id, v) :: w.visits }

def tell (records : List Record) : WorkM Unit :=
  modify fun w => { w with log := records.reverse ++ w.log }

def update (f : Store → Store) : WorkM Unit :=
  modify fun w => { w with store := f w.store }

def make (shape : Shape Ref) : WorkM Ref := do
  let (r, store) := (← get).store.alloc shape
  modify fun w => { w with store }
  return r

/-- Makes the cells that a replacement needs. -/
def install : Replacement Ref → WorkM Ref
  | .part r => return r
  | .list items => make (.list items)
  | .func f => make (.func f.params f.body)
  | .typeDef d => do
      let ctor ← make (.func d.ctor.params d.ctor.body)
      let methods ← d.methods.mapM fun (name, f) => do
        return (name, ← make (.func f.params f.body))
      make (.typeDef d.name d.fields ctor methods)

/-- Reduces the constructor or a method of a type with `go`.  If it would become an atom it stays
as it is. -/
def reduceSlot (go : Ref → WorkM Ref) (r : Ref) : WorkM Ref := do
  match ← go r with
  | .atom _ => return r
  | result => return result

/-- Reduces the parts of a cell with `go` and puts the results in their place. -/
def reduceParts (go : Ref → WorkM Ref) : Ref → WorkM Unit
  | .atom _ => return ()
  | .cell id => do
      match (← get).store.shape id with
      | .list items =>
          let items ← items.mapM go
          update (·.setShape id (.list items))
      | .quoted _ => return ()
      | .func params body =>
          let body ← body.mapM go
          update (·.setShape id (.func params body))
      | .typeDef name fields ctor methods =>
          let ctor ← reduceSlot go ctor
          let methods ← methods.mapM fun (name, r) => do return (name, ← reduceSlot go r)
          update (·.setShape id (.typeDef name fields ctor methods))

/-- Applies rules in order to a form with reduced parts.  The parts of a replacement are reduced
with `go`; a cell that replaces another counts as reduced from then on. -/
def applyRules (go : Ref → WorkM Ref) (depth : Nat) : List Rule → Ref → WorkM Ref
  | [], r => return r
  | rule :: rules, r => do
      let before := (← get).store
      match before.view r with
      | .shape (.list items) =>
          match rule.apply before.access items with
          | .error cause => throw cause
          | .ok none => applyRules go depth rules r
          | .ok (some replacement) =>
              let result ← install replacement
              let after := (← get).store
              tell (rule.records depth replacement (Thunk.mk fun _ => before.render r)
                (Thunk.mk fun _ => after.render result))
              if let .cell id := result then note id (.done result)
              reduceParts go result
              applyRules go depth rules result
      | _ => applyRules go depth rules r

def reduce : Nat → Nat → Ref → WorkM Ref
  | _, _, .atom a => return .atom a
  | fuel, depth, .cell id => do
      match (← get).visit? id with
      | some (.done result) => return result
      | some .pending => return .cell id
      | none =>
          match fuel with
          | 0 => fun _ => none
          | fuel + 1 =>
              note id .pending
              let go := reduce fuel (depth + 1)
              reduceParts go (.cell id)
              let result ← applyRules go depth Rule.all (.cell id)
              note id (.done result)
              return result

/-! ## Parent links -/

/-- Links the cells held by `id` to it, and puts those not met before on the stack. -/
def linkParts (id : Nat) : List Nat → List Nat → List Nat → Store → List Nat × List Nat × Store
  | [], stack, met, s => (stack, met, s)
  | part :: parts, stack, met, s =>
      let s := s.setParent part (some id)
      if met.contains part then linkParts id parts stack met s
      else linkParts id parts (part :: stack) (part :: met) s

/-- Links everything reachable from the cells on the stack.  Every cell is put on the stack once, so
the number of cells is enough fuel. -/
def linkAll : Nat → List Nat → List Nat → Store → Store
  | 0, _, _, s => s
  | _, [], _, s => s
  | fuel + 1, id :: stack, met, s =>
      let (stack, met, s) := linkParts id (s.shape id).cells stack met s
      linkAll fuel stack met s

def relink (s : Store) : Ref → Store
  | .atom _ => s
  | .cell root => linkAll s.size [root] [root] (s.setParent root none)

/-! ## The whole -/

/-- The outcome of normalizing a form of a store. -/
structure Normalized where
  result : Except FormError Ref
  /-- The store afterwards, also after a failure. -/
  store : Store
  log : List Record := []

def normalize (s : Store) (root : Ref) : Normalized :=
  match (reduce (2 * s.size + 2) 1 root).run { store := s } with
  | some (.ok result, w) => ⟨.ok result, w.store.relink result, w.log.reverse⟩
  | some (.error cause, w) =>
      let record := cause.record (Thunk.mk fun _ => w.store.render root)
      ⟨.error cause, w.store, (record :: w.log).reverse⟩
  | none => ⟨.ok root, s, []⟩

end Store
end RegisterLisp
