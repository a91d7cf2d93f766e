import RegisterLisp.Assembly.Line
import RegisterLisp.Text.Lines

/-!
# Listings

A listing is assembly being written to a sink.  The sink may take a limited number of bytes; a line
that does not fit is cut, and writing it fails.  A listing knows its lines, the bytes of a line that
was cut, the current indentation and the number of the next local label.
-/

namespace RegisterLisp

/-- The sink takes no more bytes. -/
inductive SinkError
  | full
  deriving DecidableEq, Repr

namespace SinkError

def message : SinkError → String
  | .full => "sink full"

end SinkError

structure Listing where
  /-- The lines written in full, last first. -/
  lines : List Line := []
  /-- The bytes written of a line that did not fit. -/
  fragment : List UInt8 := []
  /-- How many bytes the sink still takes, if that is limited. -/
  room : Option Nat := none
  indent : Nat := 0
  nextLabel : Nat := 0

namespace Listing

instance : Inhabited Listing := ⟨{}⟩

/-- Steps of writing: they may fail, and keep what has been written. -/
abbrev WriteM := ExceptT SinkError (StateM Listing)

/-- The text of bytes that are UTF-8 but for a character cut off at the end, which shows as a
replacement character. -/
def fragmentText (bytes : List UInt8) : String :=
  let cut := (List.range 4).findSome? fun n =>
    (String.fromUTF8? (ByteArray.mk (bytes.take (bytes.length - n)).toArray)).map fun s =>
      if n = 0 then s else s.push '�'
  cut.getD ""

def text (l : Listing) : String :=
  String.join (l.lines.reverse.map Line.render) ++ fragmentText l.fragment

/-- Writes a line, or as much of it as fits. -/
def writeLine (line : Line) : WriteM Unit := do
  let l ← get
  let bytes := line.render.toUTF8.toList
  match l.room with
  | none => set { l with lines := line :: l.lines }
  | some room =>
      if bytes.length ≤ room then
        set { l with lines := line :: l.lines, room := some (room - bytes.length) }
      else
        set { l with fragment := l.fragment ++ bytes.take room, room := some 0 }
        throw .full

def write (s : Statement) : WriteM Unit := do
  writeLine ⟨(← get).indent, s⟩

def increaseIndent (l : Listing) : Listing :=
  { l with indent := l.indent + 1 }

def decreaseIndent (l : Listing) : Listing :=
  { l with indent := l.indent - 1 }

/-- Runs a step with a further indentation, which is taken back also if the step fails. -/
def indented {α : Type} (step : WriteM α) : WriteM α := fun l =>
  let (result, l) := step l.increaseIndent
  (result, l.decreaseIndent)

/-- A line of a comment with the end of the comment taken out of it, by starting another comment
after it. -/
def escapeCommentEnd : List Char → List Char
  | '*' :: '/' :: cs => "*/ /*".toList ++ escapeCommentEnd cs
  | c :: cs => c :: escapeCommentEnd cs
  | [] => []

/-- Writes a comment: on one line if the text is one line, and else in a block. -/
def comment (text : String) : WriteM Unit := do
  if Text.hasLineFeed text then
    write .commentStart
    indented ((Text.lines text).forM fun line =>
      write (.commentLine (String.ofList (escapeCommentEnd (Text.trim line).toList))))
    write .commentEnd
  else write (.comment (Text.trim text))

def newLabel (stem : String) : WriteM Label := do
  let l ← get
  set { l with nextLabel := l.nextLabel + 1 }
  return Label.ofLocal stem l.nextLabel

end Listing
end RegisterLisp
