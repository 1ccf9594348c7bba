import NixSyntax.CommandLine

/-!
# Runs over several files

A run over several files is as many runs over one file, one after the other: what they write stands
in a row, and the run fails if one of them does. The three commands see a file alike as far as each
of them looks. None reads on where the file cannot be read or its text cannot be cut into tokens,
so there they complain in the same words; and a tree is asked for with `validate` as it is with
`ast`, only that `validate` keeps it to itself.

## What a failure is

A file fails for one of three reasons: it cannot be read, its text cannot be cut into tokens, or its
tokens are no program. `FailsOn` says when a command fails, in terms of the directory and of the
rules alone. It does not mention what is written, so that `failed_report_iff` says something: the
mark that decides the exit code is set on these files and on no others.

The second reason is one for every command, since the rules for programs begin with the tokens and
pass their fault on (`ofText_of_tokenize_eq_error`). The third one is none for `tokens`, which never
looks that far.

## From one file to several

What is written is joined from the left to the right, and the marks are joined by "or". So the
outcome over several files is read off those over each of them, and nothing of a file that failed
keeps the next one from being looked at.

## Main definitions

* `Command.name`, `Command.run`: running a command by its name
* `Command.FailsOn`: when a command fails on a file

## Main results

* `Command.failed_report_iff`, `Command.report_of_failsOn`: what is written for a file that fails
* `runCommandLine_files`: the run over several files, file by file
-/

namespace NixSyntax

namespace Command

variable {command : Command} {directory : Directory} {file source : String}

/-! ### Commands by their names

A command is asked for by a word. Neither word for help is one of these, so a run that names a
command and some files never stops at the help text. -/

/-- The name that a command is given by. -/
def name : Command → String
  | validate => "validate"
  | tokens => "tokens"
  | ast => "ast"

/-- A command has one name, and no other argument is taken for it. -/
theorem ofName?_eq_some_iff {text : String} :
    ofName? text = some command ↔ text = command.name := by
  constructor
  · intro h
    unfold ofName? at h
    split at h
    case h_4 => cases h
    all_goals
      cases h
      rfl
  · rintro rfl
    cases command with
    | validate => rfl
    | tokens => rfl
    | ast => rfl

/-- What the program does when it is asked for a command on some files. -/
def run (command : Command) (directory : Directory) (files : List String) : Outcome :=
  runCommandLine (command.name :: files) directory

/-- Where there are files, they are reported on. -/
theorem run_eq {files : List String} (h : files ≠ []) :
    command.run directory files = (command.reportAll directory files).outcome := by
  have hhelp : (command.name = "--help" || command.name = "-h") = false := by
    cases command with
    | validate => rfl
    | tokens => rfl
    | ast => rfl
  simp [run, runCommandLine, hhelp, ofName?_eq_some_iff.mpr rfl, h]

theorem run_single : command.run directory [file] = (command.report directory file).outcome := by
  simp [run_eq, Report.append, Report.empty]

/-! ### Files that fail

A text is refused by the command itself. A file can also fail before, if there is no text to be
had. -/

/-- A text that the command cannot do anything with: one that cannot be cut into tokens, and one
that is no program where a program is asked for. -/
def Refuses (command : Command) (source : String) : Prop :=
  match command with
  | tokens => ∃ fault, tokenize source = .error fault
  | validate | ast => ∃ fault, Program.ofText source = .error fault

/-- A file that the command fails on: one that cannot be read, and one with a text that the
command refuses. -/
def FailsOn (command : Command) (directory : Directory) (file : String) : Prop :=
  (∃ fault, directory file = .error fault) ∨
    ∃ source, directory file = .ok source ∧ command.Refuses source

theorem failed_reportText_iff :
    (command.reportText file source).failed = true ↔ command.Refuses source := by
  cases command with
  | tokens => cases h : tokenize source <;> simp [reportText, Refuses, Report.failure, h]
  | validate => cases h : Program.ofText source <;> simp [reportText, Refuses, Report.failure, h]
  | ast => cases h : Program.ofText source <;> simp [reportText, Refuses, Report.failure, h]

theorem failed_report_iff :
    (command.report directory file).failed = true ↔ command.FailsOn directory file := by
  cases h : directory file with
  | error fault => simp [report, FailsOn, Report.failure, h]
  | ok source => simp [report, FailsOn, h, failed_reportText_iff]

/-- A fault of the tokens is every command's fault. -/
theorem ofText_of_tokenize_eq_error {fault : LexFault} (h : tokenize source = .error fault) :
    Program.ofText source = .error (.lexical fault) := by
  rw [Program.ofText, h]
  rfl

/-- **Where a text cannot be cut into tokens, every command says the same.** -/
theorem reportText_of_tokenize_eq_error {fault : LexFault} (h : tokenize source = .error fault) :
    command.reportText file source = .failure file fault.message := by
  cases command with
  | tokens => simp [reportText, h]
  | validate => simp [reportText, ofText_of_tokenize_eq_error h, Fault.message]
  | ast => simp [reportText, ofText_of_tokenize_eq_error h, Fault.message]

/-- **Where a text is no program, every command that asks for one says the same.** -/
theorem reportText_of_ofText_eq_error {fault : Fault} (h : Program.ofText source = .error fault)
    (hcommand : command ≠ tokens) :
    command.reportText file source = .failure file fault.message := by
  cases command with
  | tokens => exact absurd rfl hcommand
  | validate => simp [reportText, h]
  | ast => simp [reportText, h]

/-- **For a file that fails, its name and a message are written, and nothing else.** -/
theorem report_of_failsOn (h : command.FailsOn directory file) :
    ∃ message, command.report directory file = .failure file message := by
  obtain ⟨fault, hread⟩ | ⟨source, hread, hrefuses⟩ := h
  · exact ⟨fault.message, by simp [report, hread]⟩
  · simp only [report, hread]
    cases command with
    | tokens =>
      obtain ⟨fault, hfault⟩ := hrefuses
      exact ⟨fault.message, reportText_of_tokenize_eq_error hfault⟩
    | validate | ast =>
      obtain ⟨fault, hfault⟩ := hrefuses
      exact ⟨fault.message, reportText_of_ofText_eq_error hfault nofun⟩

/-- `validate` and `ast` ask for the same, a program. -/
theorem failsOn_validate_iff : validate.FailsOn directory file ↔ ast.FailsOn directory file :=
  Iff.rfl

/-- A file that is no program is complained about in one way, whoever asks for the program. -/
theorem report_validate_of_failsOn (h : validate.FailsOn directory file) :
    validate.report directory file = ast.report directory file := by
  obtain ⟨fault, hread⟩ | ⟨source, hread, fault, hfault⟩ := h
  · simp [report, hread]
  · simp only [report, hread]
    have hfailure (command : Command) (hcommand : command ≠ tokens) :
        command.reportText file source = .failure file fault.message :=
      reportText_of_ofText_eq_error hfault hcommand
    rw [hfailure validate nofun, hfailure ast nofun]

/-- A file that can be read but not be cut into tokens is reported on in one way. -/
theorem report_of_failsOn_tokens (hread : directory file = .ok source)
    (h : tokens.FailsOn directory file) :
    command.report directory file = tokens.report directory file := by
  obtain ⟨fault, hunread⟩ | ⟨source', hread', fault, hfault⟩ := h
  · rw [hread] at hunread
    cases hunread
  · simp only [report, hread']
    rw [reportText_of_tokenize_eq_error hfault, reportText_of_tokenize_eq_error hfault]

/-! ### One file after the other

By induction on the files: a report on more files is the report on the first one, with that on the
rest behind. -/

/-- The output on some files, one behind the other. -/
theorem output_reportAll (command : Command) (directory : Directory) (files : List String) :
    (command.reportAll directory files).output =
      String.join (files.map fun file => (command.report directory file).output) := by
  induction files with
  | nil => simp [Report.empty]
  | cons file files ih => simp [Report.append, ih]

theorem errors_reportAll (command : Command) (directory : Directory) (files : List String) :
    (command.reportAll directory files).errors =
      String.join (files.map fun file => (command.report directory file).errors) := by
  induction files with
  | nil => simp [Report.empty]
  | cons file files ih => simp [Report.append, ih]

end Command

theorem Report.code_outcome_eq_one_iff {r : Report} : r.outcome.code = 1 ↔ r.failed = true := by
  cases h : r.failed <;> simp [outcome, h]

theorem Report.code_outcome_eq_zero_iff {r : Report} : r.outcome.code = 0 ↔ ¬ r.failed = true := by
  cases h : r.failed <;> simp [outcome, h]

/-- **A run over several files is a run over each of them, in order.** It writes what these write,
on either side, and ends with `1` where one of them fails and with `0` otherwise. A file fails under
`validate` where it does under `ast` and is complained about in the same words; one that can be
read but not be cut into tokens fails under every command, again in the same words. Where a file
fails, there is a line about it among the errors and nothing in the output. -/
theorem runCommandLine_files (command : Command) (directory : Directory) {files : List String}
    (h : files ≠ []) :
    (command.run directory files).output =
        String.join (files.map fun file => (command.run directory [file]).output) ∧
      (command.run directory files).errors =
        String.join (files.map fun file => (command.run directory [file]).errors) ∧
      ((command.run directory files).code = 1 ↔ ∃ file ∈ files, command.FailsOn directory file) ∧
      ((command.run directory files).code = 0 ↔ ∀ file ∈ files, ¬ command.FailsOn directory file) ∧
      ∀ file : String,
        ((Command.validate.run directory [file]).code = 1 ↔
          (Command.ast.run directory [file]).code = 1) ∧
        ((Command.validate.run directory [file]).code = 1 →
          (Command.validate.run directory [file]).errors =
            (Command.ast.run directory [file]).errors) ∧
        (∀ source, directory file = .ok source → (Command.tokens.run directory [file]).code = 1 →
          ∀ other : Command, (other.run directory [file]).code = 1 ∧
            (other.run directory [file]).errors = (Command.tokens.run directory [file]).errors) ∧
        ((command.run directory [file]).code = 1 → (command.run directory [file]).output = "" ∧
          ∃ message, (command.run directory [file]).errors = file ++ ": " ++ message ++ "\n") := by
  -- both exit codes are about the mark on the joined report
  have hfailed : (command.reportAll directory files).failed = true ↔
      ∃ file ∈ files, command.FailsOn directory file := by
    simp only [Command.failed_reportAll_iff, Command.failed_report_iff]
  simp only [Command.run_single, Command.run_eq h, Report.code_outcome_eq_one_iff,
    Report.code_outcome_eq_zero_iff, Command.failed_report_iff, hfailed]
  refine ⟨command.output_reportAll directory files, command.errors_reportAll directory files,
    trivial, by simp, fun file => ⟨Command.failsOn_validate_iff, ?_, ?_, ?_⟩⟩
  · intro hfails
    rw [Command.report_validate_of_failsOn hfails]
  · intro source hread hfails other
    have hsame : other.report directory file = Command.tokens.report directory file :=
      Command.report_of_failsOn_tokens hread hfails
    refine ⟨?_, by rw [hsame]⟩
    rw [← Command.failed_report_iff, hsame, Command.failed_report_iff]
    exact hfails
  · intro hfails
    obtain ⟨message, hmessage⟩ := Command.report_of_failsOn hfails
    exact ⟨by rw [hmessage]; rfl, message, by rw [hmessage]; rfl⟩

/-- Files of every sort: one that is a program, one that is none, one that cannot be cut into
tokens, a directory, one that is no text, and nothing else. -/
def mixedDirectory : Directory
  | "program.nix" => .ok "1"
  | "halved.nix" => .ok "("
  | "unclosed.nix" => .ok "\""
  | "folder" => .error .isDirectory
  | "picture.png" => .error .notText
  | _ => .error .missing

/-- Tokens are asked of files of every sort, and of one of them twice. -/
theorem runCommandLine_files_mixed :
    ["program.nix", "unclosed.nix", "gone.nix", "program.nix"] ≠ [] ∧
      (Command.tokens.run mixedDirectory
        ["program.nix", "unclosed.nix", "gone.nix", "program.nix"]).code = 1 ∧
      (Command.ast.run mixedDirectory ["unclosed.nix"]).errors =
        (Command.tokens.run mixedDirectory ["unclosed.nix"]).errors := by
  have hfiles : ["program.nix", "unclosed.nix", "gone.nix", "program.nix"] ≠ [] := nofun
  obtain ⟨-, -, hcode, -, hfile⟩ :=
    runCommandLine_files .tokens mixedDirectory hfiles
  have hgone : Command.tokens.FailsOn mixedDirectory "gone.nix" := .inl ⟨.missing, rfl⟩
  have hunclosed : (Command.tokens.run mixedDirectory ["unclosed.nix"]).code = 1 := rfl
  exact ⟨hfiles, hcode.mpr ⟨"gone.nix", by simp, hgone⟩,
    ((hfile "unclosed.nix").2.2.1 _ rfl hunclosed .ast).2⟩

end NixSyntax
