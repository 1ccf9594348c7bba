import NixSyntax.CommandLine

/-!
# The program

Reads the files that the arguments name and does what `runCommandLine` says. Nothing is decided
here.
-/

namespace NixSyntax

/-- Why the system cannot read a file. -/
def FileFault.ofError : IO.Error → FileFault
  | .noFileOrDirectory .. => .missing
  | .inappropriateType .. => .isDirectory
  | e => .other (toString e)

/-- What reading a file gives. -/
def readText (name : String) : IO (Except FileFault String) := do
  try
    let bytes ← IO.FS.readBinFile name
    match String.fromUTF8? bytes with
    | some text => return .ok text
    | none => return .error .notText
  catch e => return .error (.ofError e)

/-- The files of the given names. -/
def readDirectory (names : List String) : IO Directory := do
  let mut files : List (String × Except FileFault String) := []
  for name in names do
    files := (name, ← readText name) :: files
  let read := files
  return fun name => (read.lookup name).getD (.error .missing)

end NixSyntax

open NixSyntax

/-- Runs the command line. -/
def main (arguments : List String) : IO UInt32 := do
  let outcome := runCommandLine arguments (← readDirectory (arguments.drop 1))
  IO.print outcome.output
  IO.eprint outcome.errors
  return outcome.code.toUInt32
