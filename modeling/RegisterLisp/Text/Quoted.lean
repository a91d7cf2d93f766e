import RegisterLisp.Text.Printable

/-!
# Quoted strings

A string is written between double quotes.  Six characters have an escape of one letter, which is
also what the reader understands; a character that is not printable is written by its code point.
The six escapes stand in one table, used in both directions.
-/

namespace RegisterLisp
namespace Text

/-- Escape letters and the characters they stand for. -/
def escapes : List (Char × Char) :=
  [('n', '\n'), ('r', '\r'), ('t', '\t'), ('\\', '\\'), ('"', '"'), ('0', '\x00')]

def unescape? (letter : Char) : Option Char :=
  (escapes.find? fun (l, _) => l == letter).map Prod.snd

def escapeLetter? (c : Char) : Option Char :=
  (escapes.find? fun (_, meaning) => meaning == c).map Prod.fst

/-- One character as it stands between quotes. -/
def escapeChar (c : Char) : List Char :=
  match escapeLetter? c with
  | some letter => ['\\', letter]
  | none =>
      if isPrintable c then [c]
      else "\\u\x7b".toList ++ Nat.toDigits 16 c.toNat ++ ['\x7d']

def quote (text : String) : String :=
  String.ofList ('"' :: text.toList.flatMap escapeChar ++ ['"'])

end Text
end RegisterLisp
