/-!
# Labels

Names of places in assembly text.  A global label is made from a name of the program; punctuation
that an assembler would not accept is spelled out.  A local label has a stem and a number, and
starts with a character that no global label starts with.
-/

namespace RegisterLisp

structure Label where
  text : String
  deriving DecidableEq, Repr, Inhabited

namespace Label

def spellings : List (Char × String) :=
  [('?', "_quest_"), ('!', "_bang_"), ('$', "_dollar_"), ('%', "_percent_"), ('+', "_plus_"),
    ('-', "_dash_"), ('=', "_equals_"), ('^', "_caret_"), ('&', "_amper_"), ('*', "_star_"),
    ('@', "_at_"), ('~', "_tilde_"), (',', "_comma_"), (':', "_colon_"), ('<', "_lt_"),
    ('>', "_gt_"), ('.', "_dot_"), ('/', "_fslash_"), ('\\', "_bslash_"), ('|', "_pipe_")]

/-- A character as it stands in a label. -/
def spellChar (c : Char) : List Char :=
  match spellings.find? fun (from', _) => from' == c with
  | some (_, spelling) => spelling.toList
  | none => [c]

/-- A name with its punctuation spelled out. -/
def spell (name : String) : String :=
  String.ofList (name.toList.flatMap spellChar)

/-- The label of a global name.  Points, which divide a type from its method, are kept. -/
def ofGlobal (name : String) : Label :=
  ⟨String.ofList ('.' :: name.toList.flatMap fun c => if c = '.' then ['.'] else spellChar c)⟩

def ofLocal (stem : String) (n : Nat) : Label :=
  ⟨"@_" ++ spell stem ++ "_" ++ toString n ++ "__"⟩

end Label
end RegisterLisp
