import RegisterLisp.Text.Blank

/-!
# Lines of a text

A line ends at a line feed.  What follows the last line feed is a line of its own unless it is
empty.
-/

namespace RegisterLisp
namespace Text

/-- The lines of a text as characters, without their line feeds.  `line` holds the characters of
the current line so far, last first. -/
def linesFrom : List Char → List Char → List (List Char)
  | line, [] => if line.isEmpty then [] else [line.reverse]
  | line, c :: cs =>
      if c = '\n' then line.reverse :: linesFrom [] cs else linesFrom (c :: line) cs

def lines (text : String) : List String :=
  (linesFrom [] text.toList).map String.ofList

/-- Whether a text goes over more than one line. -/
def hasLineFeed (text : String) : Bool :=
  text.toList.contains '\n'

end Text
end RegisterLisp
