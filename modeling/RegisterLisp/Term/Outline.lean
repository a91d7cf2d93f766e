import RegisterLisp.Term

/-!
# Outlines

The layout of a program for debugging: every part on lines of its own, indented by its depth, with
a comma after every element.
-/

namespace RegisterLisp

/-- A value laid out over several lines. -/
inductive Outline
  | leaf (text : String)
  /-- A name with elements in parentheses. -/
  | parens (name : String) (elements : List Outline)
  /-- A name with named elements in braces. -/
  | braces (name : String) (elements : List (String × Outline))
  /-- Elements in brackets. -/
  | brackets (elements : List Outline)

namespace Outline

/-- The start of a line at a depth. -/
def margin (depth : Nat) : String :=
  String.ofList (List.replicate (4 * depth) ' ')

mutual

/-- Writes an outline whose first line stands at a depth after the text `out`. -/
def write (depth : Nat) (out : String) : Outline → String
  | .leaf text => out ++ text
  | .parens name elements =>
      writeAll (depth + 1) (out ++ name ++ "(\n") elements ++ margin depth ++ ")"
  | .braces name elements =>
      writeFields (depth + 1) (out ++ name ++ " \x7b\n") elements ++ margin depth ++ "\x7d"
  | .brackets [] => out ++ "[]"
  | .brackets (e :: es) =>
      writeAll (depth + 1) (write (depth + 1) (out ++ "[\n" ++ margin (depth + 1)) e ++ ",\n") es
        ++ margin depth ++ "]"

def writeAll (depth : Nat) (out : String) : List Outline → String
  | [] => out
  | e :: es => writeAll depth (write depth (out ++ margin depth) e ++ ",\n") es

def writeFields (depth : Nat) (out : String) : List (String × Outline) → String
  | [] => out
  | (name, e) :: es =>
      writeFields depth (write depth (out ++ margin depth ++ name ++ ": ") e ++ ",\n") es

end

def render (o : Outline) : String :=
  write 0 "" o

def ofSymbol (s : Symbol) : Outline :=
  .parens "Symbol" [.leaf (Text.quote s.name)]

def ofAtom : Atom → Outline
  | .number x => .parens "Number" [.leaf (Number.immediate x)]
  | .string s => .parens "Str" [.leaf (Text.quote s)]
  | .bool b => .parens "Bool" [.leaf (if b then "true" else "false")]
  | .symbol s => .parens "Symbol" [ofSymbol s]

/-- A form with parts, which can be changed and has a link to the form that holds it. -/
def node (form : Outline) : Outline :=
  .braces "Node" [("form", .braces "RefCell" [("value", form)]),
    ("parent", .braces "RefCell" [("value", .leaf "(Weak)")])]

mutual

/-- A form; one with parts by itself, without saying that it is one. -/
def ofForm : Term → Outline
  | .atom a => .parens "Atom" [ofAtom a]
  | .list items => node (.parens "List" [.brackets (ofTerms items)])
  | .quoted (.atom a) => node (.parens "Quoted" [.parens "Atom" [ofAtom a]])
  | .quoted inner => node (.parens "Quoted" [.parens "Node" [ofForm inner]])
  | .func params body =>
      node (.parens "Func" [.braces "FuncLit"
        [("params", .brackets (params.map ofSymbol)), ("body", .brackets (ofTerms body))]])
  | .typeDef name fields ctor methods =>
      node (.parens "TypeDef" [.braces "TypeDef"
        [("name", ofSymbol name), ("fields", .brackets (fields.map ofSymbol)),
          ("ctor", ofForm ctor), ("methods", .brackets (ofMethods methods))]])

/-- Several terms, those with parts marked as such. -/
def ofTerms : List Term → List Outline
  | [] => []
  | .atom a :: ts => .parens "Atom" [ofAtom a] :: ofTerms ts
  | t :: ts => .parens "Node" [ofForm t] :: ofTerms ts

def ofMethods : List (Symbol × Term) → List Outline
  | [] => []
  | (name, code) :: ms => .parens "" [ofSymbol name, ofForm code] :: ofMethods ms

end

def ofProgram (program : List Term) : Outline :=
  .braces "Ast" [("forms", .brackets (ofTerms program))]

end Outline
end RegisterLisp
