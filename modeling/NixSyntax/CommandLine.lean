import NixSyntax.Fault
import NixSyntax.Tree.Dump

/-!
# The command line

What the program writes and with which code it ends, as a function of its arguments and of the
files there are. The files are given as a `Directory`, so nothing here reads or writes anything.

## One file at a time

Every file gets a `Report` of its own, which says what is written for it and whether it failed.
A run over several files is their reports one after the other: no file has an effect on the next,
and one that fails does not end the run.

## Main definitions

* `Command`: what is done with each file
* `FileFault`, `Directory`: reading files
* `Report`, `Command.report`: what is written for a file
* `Outcome`, `runCommandLine`: what the program does with its arguments

## Main statements

* `Command.reportAll_append`: the report on two lists of files is the two reports in a row
* `Command.failed_reportAll_iff`: a run fails exactly when some file does
-/

namespace NixSyntax

/-- Why a file cannot be read as text. -/
inductive FileFault where
  /-- There is no such file. -/
  | missing
  /-- It is a directory. -/
  | isDirectory
  /-- Its bytes are no text. -/
  | notText
  /-- It cannot be read for another reason. -/
  | other (reason : String)
deriving Repr, DecidableEq

/-- The text of a fault of a file. -/
def FileFault.message : FileFault → String
  | missing => "No such file or directory (os error 2)"
  | isDirectory => "Is a directory (os error 21)"
  | notText => "stream did not contain valid UTF-8"
  | other reason => reason

/-- What reading the file of each name gives. -/
abbrev Directory := String → Except FileFault String

/-- What is done with each file. -/
inductive Command where
  /-- Tells whether the file is a program. -/
  | validate
  /-- Lists the tokens of the file. -/
  | tokens
  /-- Shows the syntax tree of the file. -/
  | ast
deriving Repr, DecidableEq

/-- The command of the given name. -/
def Command.ofName? : String → Option Command
  | "validate" => some .validate
  | "tokens" => some .tokens
  | "ast" => some .ast
  | _ => none

/-- What is written for some files, and whether one of them failed. -/
structure Report where
  /-- What is written to standard output. -/
  output : String
  /-- What is written to standard error. -/
  errors : String
  /-- Whether a file failed. -/
  failed : Bool
deriving Repr, DecidableEq

namespace Report

/-- The report on no file. -/
def empty : Report := ⟨"", "", false⟩

/-- Two reports in a row. -/
def append (a b : Report) : Report :=
  ⟨a.output ++ b.output, a.errors ++ b.errors, a.failed || b.failed⟩

/-- The report on a file that fails. -/
def failure (name message : String) : Report := ⟨"", name ++ ": " ++ message ++ "\n", true⟩

theorem empty_append (a : Report) : empty.append a = a := by
  simp [empty, append]

/-- Reports stand in a row, whichever two are put together first. -/
theorem append_assoc (a b c : Report) : (a.append b).append c = a.append (b.append c) := by
  simp [append, String.append_assoc, Bool.or_assoc]

end Report

/-- The line on one token: where it stands, and what it is. -/
def Token.line (t : Token) : String :=
  toString t.span.start.line ++ ":" ++ toString t.span.start.column ++ "-" ++
    toString t.span.stop.line ++ ":" ++ toString t.span.stop.column ++ "\t" ++
    t.kind.describe ++ "\n"

namespace Command

/-- The report on the file `name` with the text `source`. -/
def reportText (command : Command) (name source : String) : Report :=
  match command with
  | validate =>
    match Program.ofText source with
    | .ok _ => ⟨"", name ++ ": valid\n", false⟩
    | .error f => .failure name f.message
  | tokens =>
    match tokenize source with
    | .ok ts => ⟨String.join (ts.map Token.line), "", false⟩
    | .error f => .failure name f.message
  | ast =>
    match Program.ofText source with
    | .ok p => ⟨p.dump ++ "\n", "", false⟩
    | .error f => .failure name f.message

/-- The report on the file `name`. -/
def report (command : Command) (directory : Directory) (name : String) : Report :=
  match directory name with
  | .ok source => command.reportText name source
  | .error f => .failure name f.message

/-- The report on some files. -/
def reportAll (command : Command) (directory : Directory) (names : List String) : Report :=
  (names.map (command.report directory)).foldr Report.append Report.empty

@[simp] theorem reportAll_nil (command : Command) (directory : Directory) :
    command.reportAll directory [] = Report.empty := rfl

@[simp] theorem reportAll_cons (command : Command) (directory : Directory) (name : String)
    (names : List String) : command.reportAll directory (name :: names) =
      (command.report directory name).append (command.reportAll directory names) := rfl

/-- Files are reported on one after the other, each as if it were the only one. -/
theorem reportAll_append (command : Command) (directory : Directory) (names more : List String) :
    command.reportAll directory (names ++ more) =
      (command.reportAll directory names).append (command.reportAll directory more) := by
  induction names with
  | nil => simp [Report.empty_append]
  | cons name names ih => simp [ih, Report.append_assoc]

/-- A run fails exactly when some file does. -/
theorem failed_reportAll_iff (command : Command) (directory : Directory) (names : List String) :
    (command.reportAll directory names).failed = true ↔
      ∃ name ∈ names, (command.report directory name).failed = true := by
  induction names with
  | nil => simp [Report.empty]
  | cons name names ih => simp [Report.append, ih]

end Command

/-- What the program does with its arguments. -/
structure Outcome where
  /-- The code it ends with. -/
  code : Nat
  /-- What it writes to standard output. -/
  output : String
  /-- What it writes to standard error. -/
  errors : String
deriving Repr, DecidableEq

/-- How the program is used. -/
def usage : String :=
  String.join
    ["Usage: nixparse <command> [files...]\n",
     "\n",
     "Commands:\n",
     "  validate  Check if file(s) parse\n",
     "  tokens    Print the token stream of file(s)\n",
     "  ast       Print the syntax tree of file(s)\n",
     "\n",
     "Examples:\n",
     "  nixparse validate default.nix\n",
     "  nixparse tokens flake.nix\n",
     "  NIXPARSE_LOG=trace nixparse ast shell.nix\n"]

/-- The outcome when the arguments are of no use. -/
def misuse (message : String) : Outcome := ⟨2, "", message⟩

/-- The outcome of a run over some files. -/
def Report.outcome (r : Report) : Outcome := ⟨if r.failed then 1 else 0, r.output, r.errors⟩

/-- What the program does with the given arguments in the given directory. Help is given when it
is asked for first, and when nothing is asked for. -/
def runCommandLine (arguments : List String) (directory : Directory) : Outcome :=
  match arguments with
  | [] => misuse usage
  | name :: files =>
    if name = "--help" || name = "-h" then misuse usage
    else match Command.ofName? name with
      | none => misuse ("Unknown command: " ++ name ++ "\n")
      | some command =>
        if files.isEmpty then misuse "Error: no files specified\n"
        else (command.reportAll directory files).outcome

end NixSyntax
