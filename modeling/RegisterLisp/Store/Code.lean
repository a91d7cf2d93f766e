import RegisterLisp.Lowering.Code
import RegisterLisp.Store

/-!
# Lowering the forms of a store

The code of a form is generated straight from its cells, which are followed only as far as code is
generated.  So a form on a cycle has code as well, up to the point where the registers or the sink
are exhausted.

On the way down to a cell that has been passed before, another temporary has to have been reserved
or a function been entered, or else the way down would never end.  A function writes a line when it
is entered.  So the number of temporaries and the room in the sink bound how often a cell is passed,
and `Store.reach` bounds the way down.
-/

namespace RegisterLisp
namespace Store

/-- A form as lowering sees it, down to a given depth.  What lies deeper counts as an empty list. -/
def part (s : Store) : Nat → Ref → Lowering.Part
  | _, .atom a => .ofAtom a
  | 0, .cell _ =>
      { atom? := none, text := Thunk.mk fun _ => (Term.list []).render
        code := Lowering.unsupported (Thunk.mk fun _ => (Term.list []).render), function? := none }
  | depth + 1, .cell id =>
      let text := Thunk.mk fun _ => s.render (.cell id)
      { atom? := none, text
        code := fun state => Lowering.lowerShape text ((s.shape id).map (part s depth)) state
        function? :=
          match s.shape id with
          | .func params body => some ⟨params, body.map fun r state => (part s depth r).code state⟩
          | _ => none }

/-- A depth that no way down through the cells exceeds, if it ends, given the room in the sink. -/
def reach (s : Store) (room : Option Nat) : Nat :=
  (s.size + 1) * (Reg.all.length + room.getD 0 + 1)

def parts (s : Store) (room : Option Nat) (refs : List Ref) : List Lowering.Part :=
  refs.map (s.part (s.reach room))

def lower (s : Store) (r : Ref) : LowerM Value := fun state =>
  (s.part (s.reach state.listing.room) r).code state

def lowerProgram (s : Store) (refs : List Ref) : LowerM Unit := fun state =>
  Lowering.lowerProgram (s.parts state.listing.room refs) state

end Store
end RegisterLisp
