import RegisterLisp.CommandLine

/-!
# The program

The command line on the files of the system.
-/

open RegisterLisp

/-- An error of the system as an error of a file. -/
def fileError : IO.Error → FileError
  | .noFileOrDirectory _ _ _ => .notFound
  | .inappropriateType _ 21 _ => .isDirectory
  | e => .other (toString e)

def systemFiles : FileSystem IO where
  read path := do
    try
      return .ok (← IO.FS.readBinFile path)
    catch e => return .error (fileError e)
  write path text := do
    try
      IO.FS.writeFile path text
      return .ok ()
    catch e => return .error (fileError e)

def main (args : List String) : IO UInt32 := do
  let finish ← CommandLine.execute systemFiles args
  IO.print finish.stdout
  IO.eprint finish.stderr
  return finish.exit.toUInt32
