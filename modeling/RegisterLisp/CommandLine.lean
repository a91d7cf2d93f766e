import RegisterLisp.Compiler
import RegisterLisp.Term.Outline
import RegisterLisp.Text.Control

/-!
# The command line

    [-d | --debug] compile INPUT [-o OUT]
    [-d | --debug] fold INPUT

`compile` writes the assembly of a source file, to a file or to standard output; `fold` prints its
normal forms.  Warnings and errors of the log go to standard error; with `--debug` everything down
to debugging records does.

What the program does with files is left open, and so are the words for a text that cannot be
read: `CommandLine.execute` takes the operations on files and the wording as arguments.
-/

namespace RegisterLisp

inductive Task
  | fold (input : String)
  | compile (input : String) (output : Option String)
  deriving DecidableEq, Repr

namespace Task

/-- The file that the source text is in. -/
def input : Task → String
  | .fold input => input
  | .compile input _ => input

end Task

structure Invocation where
  debug : Bool
  task : Task
  deriving DecidableEq, Repr

/-- Why a file cannot be read or written. -/
inductive FileError
  | notFound
  | isDirectory
  | notUtf8
  /-- Anything else, in the words of the system. -/
  | other (text : String)
  deriving DecidableEq, Repr

namespace FileError

def message : FileError → String
  | .notFound => "No such file or directory (os error 2)"
  | .isDirectory => "Is a directory (os error 21)"
  | .notUtf8 => "stream did not contain valid UTF-8"
  | .other text => text

end FileError

structure FileSystem (m : Type → Type) where
  read : String → m (Except FileError ByteArray)
  write : String → String → m (Except FileError Unit)

/-- How a run of the program ends. -/
structure Finish where
  exit : Nat
  stdout : String := ""
  stderr : String := ""
  deriving DecidableEq, Repr

/-- The wording of a parser that tells what it found and how it could have gone on.  It is taken
unless another one is given. -/
instance (priority := low) ReadWording.foundExpected : ReadWording where
  describe
    | .openList => "found end of input expected '(', ''', '\"', or ')'"
    | .openQuote => "found end of input expected '(', ''', or '\"'"
    | .openString => "found end of input expected '\\', or '\"'"
    | .badEscape => "found \\ expected 'n', 'r', 't', '\\', '\"', or '0'"
    | .misplaced => "found end of input expected something else"

namespace CommandLine

/-! ## Arguments -/

/-- The arguments of a task as far as they have been read. -/
structure Arguments where
  input : Option String := none
  output : Option String := none
  /-- Whether the options have been ended. -/
  ended : Bool := false

def Arguments.setInput (a : Arguments) (path : String) : Option Arguments :=
  if path = "" ∨ a.input.isSome then none else some { a with input := some path }

def Arguments.setOutput (a : Arguments) (path : String) : Option Arguments :=
  if path = "" ∨ a.output.isSome then none else some { a with output := some path }

def isOption (arg : String) : Bool :=
  arg.toList.head? == some '-' && arg != "-"

/-- The value that is attached to an option of one letter. -/
def attached (arg : String) : Option String :=
  match arg.toList.drop 2 with
  | [] => none
  | '=' :: cs => some (String.ofList cs)
  | cs => some (String.ofList cs)

/-- Reads the arguments of a task; `-o` is accepted if `hasOutput` is set. -/
def readArguments (hasOutput : Bool) : Arguments → List String → Option Arguments
  | a, [] => some a
  | a, arg :: rest =>
      if a.ended || !isOption arg then do
        readArguments hasOutput (← a.setInput arg) rest
      else if arg = "--" then readArguments hasOutput { a with ended := true } rest
      else if hasOutput && arg.toList.take 2 == ['-', 'o'] then
        match attached arg, rest with
        | some path, rest => do readArguments hasOutput (← a.setOutput path) rest
        | none, path :: rest =>
            if isOption path then none
            else do readArguments hasOutput (← a.setOutput path) rest
        | none, [] => none
      else none

def readTask : List String → Option Task
  | "fold" :: rest => do
      let a ← readArguments false {} rest
      return .fold (← a.input)
  | "compile" :: rest => do
      let a ← readArguments true {} rest
      return .compile (← a.input) a.output
  | _ => none

/-- Reads all arguments.  `none` means that they are refused. -/
def readInvocation : List String → Option Invocation
  | "-d" :: rest => (readTask rest).map (⟨true, ·⟩)
  | "--debug" :: rest => (readTask rest).map (⟨true, ·⟩)
  | rest => (readTask rest).map (⟨false, ·⟩)

/-! ## Running -/

/-- The records that are shown, each on its line and without terminal controls. -/
def showLog (debug : Bool) (log : List Record) : String :=
  let limit := if debug then Level.debug.rank else Level.warn.rank
  String.join ((Record.upTo limit log).map fun r => Text.dropControls r.render)

def failure (log message : String) (source : Option String) : Finish :=
  let cause :=
    match source with
    | some text => "\nCaused by:\n    " ++ text ++ "\n"
    | none => ""
  { exit := 1, stderr := log ++ "Error: " ++ message ++ "\n" ++ cause }

/-- What is left to do after the compiler has run: the text of the result with its log, or the end
with an error. -/
def process [ReadWording] (i : Invocation) (text : String) : Except Finish (String × String) :=
  match Compiler.read text with
  | .error cause => .error (failure "" cause.message cause.source?)
  | .ok program =>
      let outline : Record :=
        ⟨.debug, .commandLine, Thunk.mk fun _ => (Outline.ofProgram program).render⟩
      let folded := Compiler.normalize program
      match folded.result with
      | .error cause =>
          .error (failure (showLog i.debug (outline :: folded.log)) cause.message cause.source?)
      | .ok forms =>
          match i.task with
          | .fold _ =>
              .ok (String.join (forms.map fun t => t.render ++ "\n"),
                showLog i.debug (outline :: folded.log))
          | .compile _ _ =>
              let assembled := Compiler.assemble forms
              let log := showLog i.debug (outline :: (folded.log ++ assembled.log))
              match assembled.result with
              | .error cause => .error (failure log cause.message cause.source?)
              | .ok assembly => .ok (assembly, log)

/-- Runs the program with arguments that have been accepted. -/
def run {m : Type → Type} [Monad m] [ReadWording] (files : FileSystem m) (i : Invocation) :
    m Finish := do
  match ← files.read i.task.input with
  | .error cause => return failure "" cause.message none
  | .ok bytes =>
      match String.fromUTF8? bytes with
      | none => return failure "" FileError.notUtf8.message none
      | some text =>
          match process i text with
          | .error finish => return finish
          | .ok (result, log) =>
              match i.task with
              | .compile _ (some path) =>
                  match ← files.write path result with
                  | .error cause => return failure log cause.message none
                  | .ok _ => return { exit := 0, stderr := log }
              | _ => return { exit := 0, stdout := result, stderr := log }

def usage : String :=
  "usage: [-d | --debug] compile INPUT [-o OUT]\n       [-d | --debug] fold INPUT\n"

def execute {m : Type → Type} [Monad m] [ReadWording] (files : FileSystem m)
    (args : List String) : m Finish :=
  match readInvocation args with
  | some i => run files i
  | none => return { exit := 2, stderr := usage }

end CommandLine
end RegisterLisp
