import RegisterLisp.Operator
import RegisterLisp.Shape

/-!
# What rules work with

A rule looks at a plain list whose items are already reduced, and either declines, fails, or
answers with a replacement.  Rules are written over any type `ρ` of parts: terms, or references
into a store.  `Access ρ` is all that a rule knows about parts.
-/

namespace RegisterLisp

/-- Why a form is refused. -/
inductive FormError
  | malformed (form reason : String)
  | duplicateName (type name : Symbol)
  | arity (operator : Operator) (found : Nat)
  deriving DecidableEq

namespace FormError

def message : FormError → String
  | .malformed form reason => "malformed `" ++ form ++ "`: " ++ reason
  | .duplicateName type name =>
      "`" ++ name.name ++ "` is defined more than once in type `" ++ type.name ++ "`"
  | .arity op found =>
      "`" ++ op.name ++ "` expects " ++ op.arity.render ++ " operand(s), found " ++ toString found

end FormError

/-- How parts of forms are looked at, compared and written. -/
structure Access (ρ : Type) where
  view : ρ → View ρ
  /-- An atom as a part. -/
  atom : Atom → ρ
  /-- Equality as programs see it. -/
  same : ρ → ρ → Bool
  render : ρ → String

namespace Access

variable {ρ : Type}

def number? (a : Access ρ) (r : ρ) : Option Float :=
  (a.view r).number?

def symbol? (a : Access ρ) (r : ρ) : Option Symbol :=
  (a.view r).symbol?

/-- The symbol that heads a list of items. -/
def head? (a : Access ρ) (items : List ρ) : Option Symbol :=
  items.head?.bind a.symbol?

/-- Whether two lists of parts are equal as programs see them. -/
def sameAll (a : Access ρ) (xs ys : List ρ) : Bool :=
  xs.length == ys.length && (xs.zip ys).all fun (x, y) => a.same x y

def renderList (a : Access ρ) (items : List ρ) : String :=
  "(" ++ Term.spaced (items.map a.render) ++ ")"

end Access

structure Lambda (ρ : Type) where
  params : List Symbol
  body : List ρ

/-- A type definition with its constructor and methods as function literals. -/
structure TypeDecl (ρ : Type) where
  name : Symbol
  fields : List Symbol
  ctor : Lambda ρ
  methods : List (Symbol × Lambda ρ)

/-- What a rule puts in the place of a list. -/
inductive Replacement (ρ : Type)
  /-- A part of the list, or an atom. -/
  | part (r : ρ)
  | list (items : List ρ)
  | func (f : Lambda ρ)
  | typeDef (d : TypeDecl ρ)

namespace Replacement

def toTerm : Replacement Term → Term
  | .part t => t
  | .list items => .list items
  | .func f => .func f.params f.body
  | .typeDef d =>
      .typeDef d.name d.fields (.func d.ctor.params d.ctor.body)
        (d.methods.map fun (name, f) => (name, .func f.params f.body))

end Replacement

namespace Term

def access : Access Term where
  view := Term.view
  atom := Term.atom
  same := Term.same
  render := Term.render

end Term
end RegisterLisp
