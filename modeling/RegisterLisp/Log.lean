/-!
# Log records

What the compiler tells about its work.  A record has a level, the part of the compiler it comes
from and a message.  Messages are put together only when they are shown, because the text of a
shared form can be much larger than the form.
-/

namespace RegisterLisp

/-- How important a record is, most important first. -/
inductive Level
  | error | warn | info | debug | trace
  deriving DecidableEq, Repr

namespace Level

/-- The rank of a level; more important levels rank lower. -/
def rank : Level → Nat
  | .error => 1
  | .warn => 2
  | .info => 3
  | .debug => 4
  | .trace => 5

def name : Level → String
  | .error => "ERROR"
  | .warn => "WARN"
  | .info => "INFO"
  | .debug => "DEBUG"
  | .trace => "TRACE"

end Level

/-- The part of the compiler a record comes from. -/
inductive Origin
  | commandLine | normalization | definitions | lowering | registers
  deriving DecidableEq, Repr

namespace Origin

def name : Origin → String
  | .commandLine => "lispasm::cli"
  | .normalization => "middle::rewrite"
  | .definitions => "middle::desugar"
  | .lowering => "backend::codegen"
  | .registers => "backend::registers"

end Origin

structure Record where
  level : Level
  origin : Origin
  message : Thunk String

namespace Record

def upTo (limit : Nat) (records : List Record) : List Record :=
  records.filter fun r => r.level.rank ≤ limit

/-- A record on a line of its own: level, padded to five characters, origin and message.  The lines
of the message after the first are indented. -/
def render (r : Record) : String :=
  let pad := String.ofList (List.replicate (5 - r.level.name.length) ' ')
  let head := "[" ++ r.level.name ++ pad ++ " " ++ r.origin.name ++ "] "
  let indent (out : String) (c : Char) := if c = '\n' then out ++ "\n    " else out.push c
  r.message.get.toList.foldl indent head ++ "\n"

end Record
end RegisterLisp
