import RegisterLisp.Reduction.Access

/-!
# Definitions

The rules that know keywords:

- `dropNops` removes `(nop …)` forms from the list that holds them; a type definition keeps its
  items, because a nop may be its constructor's body,
- `funcLiteral` turns `(func (params…) body…)` into a function literal,
- `typeDefinition` turns `(def-type name (fields…) body (method (func …))…)` into a constructor and
  methods with a receiver.
-/

namespace RegisterLisp
namespace Reduction

variable {ρ : Type}

def isNop (a : Access ρ) (r : ρ) : Bool :=
  match (a.view r).items? with
  | some items => a.head? items == some Symbol.nop
  | none => false

def dropNops (a : Access ρ) (items : List ρ) : Option (Replacement ρ) :=
  if a.head? items == some Symbol.nop || a.head? items == some Symbol.defType then none
  else if items.any (isNop a) then some (.list (items.filter fun r => !isNop a r))
  else none

def names? (a : Access ρ) (r : ρ) : Option (List Symbol) :=
  (a.view r).items?.bind fun items => items.mapM a.symbol?

def malformed (a : Access ρ) (items : List ρ) (reason : String) : FormError :=
  .malformed (a.renderList items) reason

/-- Turns a list headed by `func` into a function literal. -/
def funcLiteral (a : Access ρ) (items : List ρ) :
    Except FormError (Option (Replacement ρ)) :=
  if a.head? items != some Symbol.func then .ok none
  else
    match items with
    | _ :: params :: body =>
        match names? a params with
        | none =>
            .error (malformed a items "func's first argument must be a list of parameter names")
        | some params =>
            match Symbol.repeated? [] params with
            | some s =>
                .error (malformed a items
                  ("parameter `" ++ s.name ++ "` is declared more than once"))
            | none => .ok (some (.func ⟨params, body⟩))
    | _ => .error (malformed a items "func requires a parameter list")

/-- A method in source form: a list of its name and a function literal. -/
def method? (a : Access ρ) (r : ρ) : Option (Symbol × Lambda ρ) :=
  match (a.view r).items? with
  | some [name, code] =>
      (a.symbol? name).bind fun s => (a.view code).func?.map fun (params, body) =>
        (s, ⟨params, body⟩)
  | _ => none

/-- The definition with its receivers in place, once all its parts have been checked. -/
def withReceivers (name : Symbol) (fields : List Symbol) (ctorBody : ρ)
    (methods : List (Symbol × Lambda ρ)) : TypeDecl ρ :=
  { name, fields
    ctor := ⟨fields, [ctorBody]⟩
    methods := methods.map fun (s, f) => (s, ⟨Symbol.this :: f.params, f.body⟩) }

/-- The reason why the parts of a type definition do not fit together. -/
def typeDefFault? (a : Access ρ) (items : List ρ) (name : Symbol)
    (methods : List (Symbol × Lambda ρ)) : Option FormError :=
  match methods.find? fun (_, f) => f.params.contains Symbol.this with
  | some (s, _) =>
      some (malformed a items
        ("method `" ++ s.name ++ "` must not declare `" ++ Symbol.this.name ++ "` itself"))
  | none =>
      (Symbol.repeated? [] (name :: name.predicate :: methods.map Prod.fst)).map fun s =>
        .duplicateName name s

/-- Turns a list headed by `def-type` into a type definition. -/
def typeDefinition (a : Access ρ) (items : List ρ) :
    Except FormError (Option (Replacement ρ)) :=
  if a.head? items != some Symbol.defType then .ok none
  else
    match items with
    | _ :: name :: fields :: ctorBody :: methods =>
        match a.symbol? name with
        | none => .error (malformed a items "def-type's first argument must be a type name")
        | some name =>
            match names? a fields with
            | none =>
                .error (malformed a items "def-type's second argument must be a list of names")
            | some fields =>
                match Symbol.repeated? [] fields with
                | some s =>
                    .error (malformed a items
                      ("field `" ++ s.name ++ "` is declared more than once"))
                | none =>
                    match methods.mapM (method? a) with
                    | none =>
                        .error (malformed a items
                          "all further arguments to def-type must be name-function pairs")
                    | some methods =>
                        match typeDefFault? a items name methods with
                        | some fault => .error fault
                        | none =>
                            .ok (some (.typeDef (withReceivers name fields ctorBody methods)))
    | _ =>
        .error (malformed a items
          "def-type takes at least three arguments (name, fields, ctor)")

end Reduction
end RegisterLisp
