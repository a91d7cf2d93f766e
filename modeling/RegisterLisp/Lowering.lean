import RegisterLisp.Lowering.Code

/-!
# Lowering terms to assembly

`Term.part` is a term as lowering sees it, built from the inside out, and `Lowering.lower` generates
its code.
-/

namespace RegisterLisp
namespace Term

mutual

/-- A term as lowering sees it. -/
def part : Term → Lowering.Part
  | .atom a => .ofAtom a
  | .list items =>
      let text := Thunk.mk fun _ => render (.list items)
      { atom? := none, text, code := Lowering.lowerShape text (.list (parts items))
        function? := none }
  | .quoted inner =>
      let text := Thunk.mk fun _ => render (.quoted inner)
      { atom? := none, text, code := Lowering.unsupported text, function? := none }
  | .func params body =>
      let parts := parts body
      { atom? := none, text := Thunk.mk fun _ => render (.func params body)
        code := Lowering.localFunction ⟨params, parts.map Lowering.Part.code⟩
        function? := some ⟨params, parts.map Lowering.Part.code⟩ }
  | .typeDef name fields ctor methods =>
      { atom? := none, text := Thunk.mk fun _ => render (.typeDef name fields ctor methods)
        code := Lowering.defineType name (part ctor) (methodParts methods)
        function? := none }

def parts : List Term → List Lowering.Part
  | [] => []
  | t :: ts => part t :: parts ts

def methodParts : List (Symbol × Term) → List (Symbol × Lowering.Part)
  | [] => []
  | (name, t) :: ms => (name, part t) :: methodParts ms

end

end Term

namespace Lowering

/-- Generates the code of a term and returns its value. -/
def lower (t : Term) : LowerM Value :=
  t.part.code

end Lowering
end RegisterLisp
