/-!
# Terminal controls

A text can hold controls that a terminal acts on instead of showing them: single control
characters, and sequences that start with the escape character.  `Text.dropControls` leaves out both
and keeps what a terminal would show.

`Sequence` says what a scanner is in the middle of, and `Sequence.next` how one byte takes it
further.  An escape ends with one final byte, a control sequence with a letter or sign after its
parameters, an operating system command with a bell, and a string with its terminator.  Tabs and
ends of lines inside an escape or a control sequence are kept, those inside strings are not.
-/

namespace RegisterLisp
namespace Text

/-- What a scanner of terminal controls is in the middle of. -/
inductive Sequence
  /-- Plain text. -/
  | none
  /-- After the escape character. -/
  | escape
  /-- After an escape and bytes that come before its final one. -/
  | intermediate
  /-- A control sequence. -/
  | control
  /-- A device control string before its parameters. -/
  | deviceStart
  /-- The parameters of a device control string. -/
  | deviceParams
  /-- A device control string after its parameters. -/
  | deviceIntermediate
  /-- The contents of a string. -/
  | string
  /-- An operating system command. -/
  | command
  deriving DecidableEq, Repr

namespace Sequence

def terminator : Nat := 0x9c

/-- What one byte makes of a sequence.  Two control characters cancel any sequence, and the escape
character starts a new one. -/
def next (s : Sequence) (byte : Nat) : Sequence :=
  if byte = 0x18 ∨ byte = 0x1a then .none
  else if byte = 0x1b then .escape
  else
    match s with
    | .none => .none
    | .escape =>
        if byte < 0x20 ∨ 0x7f ≤ byte then .escape
        else if byte < 0x30 then .intermediate
        else if byte = 0x50 then .deviceStart
        else if byte = 0x58 ∨ byte = 0x5e ∨ byte = 0x5f then .string
        else if byte = 0x5b then .control
        else if byte = 0x5d then .command
        else .none
    | .intermediate => if 0x30 ≤ byte ∧ byte < 0x7f then .none else .intermediate
    | .control => if 0x40 ≤ byte ∧ byte < 0x7f then .none else .control
    | .deviceStart =>
        if byte < 0x20 ∨ 0x7f ≤ byte then .deviceStart
        else if byte < 0x30 then .deviceIntermediate
        else if byte < 0x40 then .deviceParams
        else .string
    | .deviceParams =>
        if byte < 0x20 ∨ 0x7f ≤ byte then .deviceParams
        else if byte < 0x30 then .deviceIntermediate
        else if byte < 0x3c then .deviceParams
        else .string
    | .deviceIntermediate =>
        if 0x30 ≤ byte ∧ byte < 0x7f then .string else .deviceIntermediate
    | .string => if byte = terminator then .none else .string
    | .command => if byte = 0x07 then .none else .command

def nextChar (s : Sequence) (c : Char) : Sequence :=
  if c.toNat < 0x80 then s.next c.toNat
  else (String.singleton c).toUTF8.toList.foldl (fun s byte => s.next byte.toNat) s

/-- Whether tabs and ends of lines are kept. -/
def keepsSpace : Sequence → Bool
  | .none | .escape | .intermediate | .control => true
  | _ => false

def keeps (s : Sequence) (c : Char) : Bool :=
  if c = '\t' ∨ c = '\n' ∨ c = '\x0c' ∨ c = '\r' then s.keepsSpace
  else s = .none ∧ 0x20 ≤ c.toNat ∧ c.toNat ≠ 0x7f

end Sequence

/-- Takes a scanner over one character, with the text kept so far. -/
def scanControl : Sequence × String → Char → Sequence × String
  | (s, kept), c => (s.nextChar c, if s.keeps c then kept.push c else kept)

def dropControls (text : String) : String :=
  (text.toList.foldl scanControl (.none, "")).2

end Text
end RegisterLisp
