import RegisterLisp.Term.Token

/-!
# Reading terms

The reader takes the tokens of a text in order and keeps the lists and quotes that are still open,
innermost first.  A finished term closes the quotes around it and then goes to the innermost open
list, or to the top level.
-/

namespace RegisterLisp
namespace Term

/-- A form that has been opened and not yet closed. -/
inductive Opening
  /-- A list with its items so far, last first. -/
  | list (items : List Term)
  | quote

/-- What has been read so far. -/
structure Reading where
  /-- The finished forms at the top level, last first. -/
  done : List Term := []
  /-- The open forms, innermost first. -/
  openings : List Opening := []

namespace Reading

/-- Puts a finished term where it belongs. -/
def place (done : List Term) : List Opening → Term → Reading
  | [], t => ⟨t :: done, []⟩
  | .list items :: rest, t => ⟨done, .list (t :: items) :: rest⟩
  | .quote :: rest, t => place done rest (.quoted t)

def step (r : Reading) : Token → Except ReadError Reading
  | .leftParen => .ok { r with openings := .list [] :: r.openings }
  | .rightParen =>
      match r.openings with
      | .list items :: rest => .ok (place r.done rest (.list items.reverse))
      | _ => .error .misplaced
  | .quote => .ok { r with openings := .quote :: r.openings }
  | .atom a => .ok (place r.done r.openings (.atom a))
  | .fault cause => .error cause

def steps : Reading → List Token → Except ReadError Reading
  | r, [] => .ok r
  | r, t :: ts =>
      match r.step t with
      | .ok next => steps next ts
      | .error cause => .error cause

/-- The forms read, once the text has ended. -/
def forms (r : Reading) : Except ReadError (List Term) :=
  if r.openings.isEmpty then .ok r.done.reverse else .error .openList

end Reading

def readAll (text : String) : Except ReadError (List Term) :=
  match Reading.steps {} (Token.ofText text) with
  | .ok r => r.forms
  | .error cause => .error cause

end Term
end RegisterLisp
