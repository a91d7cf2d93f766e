import RegisterLisp.Term

/-!
# Shapes

A shape is one layer of a form, with its parts of some type `ρ`.  With terms as parts it is the top
layer of a term; with references as parts it is what a cell of a store holds.  Rules that look at
forms are written once, over shapes.
-/

namespace RegisterLisp

/-- One layer of a form. -/
inductive Shape (ρ : Type)
  | list (items : List ρ)
  | quoted (inner : ρ)
  | func (params : List Symbol) (body : List ρ)
  | typeDef (name : Symbol) (fields : List Symbol) (ctor : ρ) (methods : List (Symbol × ρ))
  deriving DecidableEq

/-- One layer of a form, or an atom. -/
inductive View (ρ : Type)
  | atom (value : Atom)
  | shape (layer : Shape ρ)

namespace Shape

variable {ρ σ : Type}

def map (f : ρ → σ) : Shape ρ → Shape σ
  | .list items => .list (items.map f)
  | .quoted inner => .quoted (f inner)
  | .func params body => .func params (body.map f)
  | .typeDef name fields ctor methods =>
      .typeDef name fields (f ctor) (methods.map fun (s, r) => (s, f r))

def parts : Shape ρ → List ρ
  | .list items => items
  | .quoted inner => [inner]
  | .func _ body => body
  | .typeDef _ _ ctor methods => ctor :: methods.map Prod.snd

/-- The term with this top layer. -/
def toTerm : Shape Term → Term
  | .list items => .list items
  | .quoted inner => .quoted inner
  | .func params body => .func params body
  | .typeDef name fields ctor methods => .typeDef name fields ctor methods

end Shape

namespace View

variable {ρ σ : Type}

def map (f : ρ → σ) : View ρ → View σ
  | .atom a => .atom a
  | .shape s => .shape (s.map f)

def atom? : View ρ → Option Atom
  | .atom a => some a
  | .shape _ => none

def symbol? (v : View ρ) : Option Symbol :=
  v.atom?.bind Atom.symbol?

def number? (v : View ρ) : Option Float :=
  v.atom?.bind Atom.number?

/-- Whether an atom other than a symbol is seen. -/
def isLiteral : View ρ → Bool
  | .atom a => a.isLiteral
  | .shape _ => false

/-- The items of a plain list. -/
def items? : View ρ → Option (List ρ)
  | .shape (.list items) => some items
  | _ => none

/-- Parameters and body of a function literal. -/
def func? : View ρ → Option (List Symbol × List ρ)
  | .shape (.func params body) => some (params, body)
  | _ => none

end View

namespace Term

def view : Term → View Term
  | .atom a => .atom a
  | .list items => .shape (.list items)
  | .quoted inner => .shape (.quoted inner)
  | .func params body => .shape (.func params body)
  | .typeDef name fields ctor methods => .shape (.typeDef name fields ctor methods)

/-- A term in which a symbol is seen is that symbol. -/
theorem eq_symbol_of_view {t : Term} {s : Symbol} (h : t.view.symbol? = some s) :
    t = .atom (.symbol s) := by
  cases t with
  | atom a => cases a <;> simp_all [view, View.symbol?, View.atom?, Atom.symbol?]
  | _ => cases h

end Term
end RegisterLisp
