import RegisterLisp.Log
import RegisterLisp.Reduction.Definitions
import RegisterLisp.Reduction.Operators

/-!
# The rules in order

Four rules are applied to a list, each to what the one before it made of the list.  A rule that
fires is told in the log.
-/

namespace RegisterLisp

inductive Rule
  | nop | fold | func | typeDef
  deriving DecidableEq, Repr

namespace Rule

/-- The rules in the order they are applied. -/
def all : List Rule :=
  [.nop, .fold, .func, .typeDef]

def name : Rule → String
  | .nop => "nop"
  | .fold => "fold"
  | .func => "func"
  | .typeDef => "def-type"

def apply {ρ : Type} (a : Access ρ) (items : List ρ) :
    Rule → Except FormError (Option (Replacement ρ))
  | .nop => .ok (Reduction.dropNops a items)
  | .fold => Reduction.reduceOperator a items
  | .func => Reduction.funcLiteral a items
  | .typeDef => Reduction.typeDefinition a items

/-- What the log says about a rule that fires, with the texts of the form before and after. -/
def records {ρ : Type} (rule : Rule) (depth : Nat) (replacement : Replacement ρ)
    (before after : Thunk String) : List Record :=
  let expansion :=
    match replacement with
    | .typeDef d => [⟨.info, .definitions, "desugaring type definition `" ++ d.name.name ++ "`"⟩]
    | _ => []
  let message := Thunk.mk fun _ =>
    String.ofList (List.replicate (4 * depth) ' ') ++ rule.name ++ ": " ++ before.get ++ " => "
      ++ after.get
  expansion ++ [⟨.debug, .normalization, message⟩]

end Rule

namespace FormError

/-- What the log says about a form that is refused. -/
def record (cause : FormError) (form : Thunk String) : Record :=
  ⟨.error, .normalization, Thunk.mk fun _ =>
    "error with `" ++ form.get ++ "`: " ++ cause.message⟩

end FormError
end RegisterLisp
