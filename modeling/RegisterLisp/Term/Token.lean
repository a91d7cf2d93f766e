import RegisterLisp.Number.Parse
import RegisterLisp.Term

/-!
# Tokens

Source text is cut into tokens by a machine that takes one character at a time.  Blanks and
comments separate tokens and leave no trace.  A bare word runs up to a blank or one of `( ) ' " ;`.
A quote must stand directly before what it quotes, so the machine looks at the character after it.

Where the text cannot be read on, the machine emits a fault and is stuck.
-/

namespace RegisterLisp

/-- Why a text cannot be read. -/
inductive ReadError
  /-- The text ends inside a list. -/
  | openList
  /-- The text ends right after a quote. -/
  | openQuote
  /-- The text ends inside a string. -/
  | openString
  /-- A backslash in a string is not followed by an escape letter. -/
  | badEscape
  /-- A closing parenthesis or a quote stands where it has no meaning. -/
  | misplaced
  deriving DecidableEq, Repr

inductive Token
  | leftParen
  | rightParen
  | quote
  | atom (value : Atom)
  /-- The text cannot be read beyond this place. -/
  | fault (cause : ReadError)
  deriving DecidableEq

namespace Token

/-! ## Bare words -/

/-- Whether a word is tried as a number: it starts with a digit, or with a sign or a point and then
a digit. -/
def looksNumeric : List Char → Bool
  | [] => false
  | [c] => c.isDigit
  | c :: d :: _ => c.isDigit || ((c == '-' || c == '+' || c == '.') && d.isDigit)

/-- The atom that a bare word denotes. -/
def ofWord (word : List Char) : Atom :=
  let text := String.ofList word
  if text = "true" then .bool true
  else if text = "false" then .bool false
  else
    match if looksNumeric word then Number.ofChars? word else none with
    | some x => .number x
    | none => .symbol ⟨text⟩

/-! ## The machine -/

/-- What the machine is in the middle of.  Characters of the current token are kept last first. -/
inductive Mode
  | between
  | afterQuote
  | comment
  | word (seen : List Char)
  | string (seen : List Char)
  | escape (seen : List Char)
  | stuck

/-- The mode and the tokens that a character between tokens gives rise to. -/
def start (c : Char) : List Token × Mode :=
  if Text.isBlank c then ([], .between)
  else if c = ';' then ([], .comment)
  else if c = '(' then ([.leftParen], .between)
  else if c = ')' then ([.rightParen], .between)
  else if c = '\'' then ([.quote], .afterQuote)
  else if c = '"' then ([], .string [])
  else ([], .word [c])

def endsWord (c : Char) : Bool :=
  Text.isBlank c || c == '(' || c == ')' || c == '\'' || c == '"' || c == ';'

def step : Mode → Char → List Token × Mode
  | .between, c => start c
  | .afterQuote, c =>
      if Text.isBlank c || c == ';' || c == ')' then ([.fault .misplaced], .stuck) else start c
  | .comment, c => ([], if c = '\n' then .between else .comment)
  | .word seen, c =>
      if endsWord c then
        let (tokens, mode) := start c
        (.atom (ofWord seen.reverse) :: tokens, mode)
      else ([], .word (c :: seen))
  | .string seen, c =>
      if c = '"' then ([.atom (.string (String.ofList seen.reverse))], .between)
      else if c = '\\' then ([], .escape seen)
      else ([], .string (c :: seen))
  | .escape seen, c =>
      match Text.unescape? c with
      | some meaning => ([], .string (meaning :: seen))
      | none => ([.fault .badEscape], .stuck)
  | .stuck, _ => ([], .stuck)

def finish : Mode → List Token
  | .between => []
  | .afterQuote => [.fault .openQuote]
  | .comment => []
  | .word seen => [.atom (ofWord seen.reverse)]
  | .string _ => [.fault .openString]
  | .escape _ => [.fault .badEscape]
  | .stuck => []

/-- The tokens of a text, from a given mode on. -/
def scan : Mode → List Char → List Token
  | mode, [] => finish mode
  | mode, c :: cs =>
      let (tokens, next) := step mode c
      tokens ++ scan next cs

def ofText (text : String) : List Token :=
  scan .between text.toList

end Token
end RegisterLisp
