import RegisterLisp.Term.Token

/-!
# Parsers

The language of source text as parsers that are put together from smaller ones.  A parser takes
something from the front of a text and says what is left of it, or it fails.  Alternatives are tried
in order and from the same place, so what a failed one has looked at is not lost.

`Term.readAll` reads a text in one pass, without going back.  That both accept the same texts with
the same forms is `Parser.parse_eq_readAll`.
-/

namespace RegisterLisp

/-- Takes something from the front of a text, or fails. -/
abbrev Parser (α : Type) := List Char → Option (α × List Char)

namespace Parser

variable {α β γ : Type}

/-! ## Combinators -/

def satisfy (ok : Char → Bool) : Parser Char
  | [] => none
  | c :: cs => if ok c then some (c, cs) else none

def just (c : Char) : Parser Char :=
  satisfy (· == c)

def noneOf (excluded : List Char) : Parser Char :=
  satisfy fun c => !excluded.contains c

def map (f : α → β) (p : Parser α) : Parser β := fun cs => do
  let (a, rest) ← p cs
  return (f a, rest)

def andThen (p : Parser α) (q : Parser β) : Parser (α × β) := fun cs => do
  let (a, mid) ← p cs
  let (b, rest) ← q mid
  return ((a, b), rest)

def ignoreThen (p : Parser α) (q : Parser β) : Parser β :=
  (p.andThen q).map Prod.snd

def thenIgnore (p : Parser α) (q : Parser β) : Parser α :=
  (p.andThen q).map Prod.fst

def delimitedBy (p : Parser α) (opening : Parser β) (closing : Parser γ) : Parser α :=
  (opening.ignoreThen p).thenIgnore closing

def paddedBy (p : Parser α) (padding : Parser β) : Parser α :=
  p.delimitedBy padding padding

/-- Lets blanks stand on both sides. -/
def padded (p : Parser α) : Parser α := fun cs => do
  let (a, rest) ← p (cs.dropWhile Text.isBlank)
  return (a, rest.dropWhile Text.isBlank)

/-- The first of the parsers that does not fail. -/
def choice : List (Parser α) → Parser α
  | [] => fun _ => none
  | p :: ps => fun cs => (p cs).or (choice ps cs)

/-- As often as the parser does not fail, and as long as it consumes something. -/
def repeated (p : Parser α) : Parser (List α) := fun cs =>
  match p cs with
  | none => some ([], cs)
  | some (a, mid) =>
      if _h : mid.length < cs.length then do
        let (as, rest) ← repeated p mid
        return (a :: as, rest)
      else some ([], cs)
termination_by cs => cs.length

/-- A parser in terms of itself.  It may call itself on a shorter text only. -/
def recursive (f : Parser α → Parser α) : Parser α := fun cs =>
  f (fun rest => if _h : rest.length < cs.length then recursive f rest else none) cs
termination_by cs => cs.length

def atEnd : Parser Unit
  | [] => some ((), [])
  | _ :: _ => none

/-! ## The language -/

/-- The characters other than blanks that end a bare word. -/
def delimiters : List Char :=
  ['(', ')', '\'', '"', ';']

def isWordChar (c : Char) : Bool :=
  !Text.isBlank c && !delimiters.contains c

def charEscape : Parser Char :=
  (just '\\').ignoreThen
    (choice (Text.escapes.map fun (letter, meaning) => (just letter).map fun _ => meaning))

def string : Parser Term :=
  let characters := (choice [noneOf ['"', '\\'], charEscape]).repeated
  (characters.delimitedBy (just '"') (just '"')).map fun s => .atom (.string (String.ofList s))

def bare : Parser Term :=
  ((satisfy isWordChar).andThen (satisfy isWordChar).repeated).map fun (c, cs) =>
    .atom (Token.ofWord (c :: cs))

def comment : Parser Unit :=
  ((just ';').andThen (noneOf ['\n']).repeated).padded.map fun _ => ()

/-- Blanks and comments. -/
def trivia : Parser Unit :=
  comment.repeated.padded.map fun _ => ()

/-- A form, given the parser for the forms inside it. -/
def exprFrom (expr : Parser Term) : Parser Term :=
  let list := (expr.paddedBy trivia).repeated.delimitedBy ((just '(').andThen trivia) (just ')')
  let quoted := (just '\'').ignoreThen expr
  choice [list.map Term.list, quoted.map Term.quoted, string, bare]

def expr : Parser Term :=
  recursive exprFrom

/-- Forms up to the end of the text, with trivia around each. -/
def program : Parser (List Term) :=
  (trivia.ignoreThen (expr.paddedBy trivia).repeated).thenIgnore atEnd

def parse (text : String) : Option (List Term) :=
  (program text.toList).map Prod.fst

end Parser
end RegisterLisp
