import Reckoner.CommandLine.Arguments
import Reckoner.CommandLine.Help
import Reckoner.Session
import Reckoner.Text.Lines

/-! The command: one expression, a program in a file, a file line by line, or an
interactive session. Files and input are given as values, and what is printed is
collected, so that nothing here touches the world outside. -/
namespace Reckoner.CommandLine

/-- Why the command broke off instead of ending with a status. -/
inductive Breakage where
  | failure (failure : Failure)
  /-- A program file is not valid UTF-8. -/
  | undecodable

inductive Ending where
  | status (code : Nat)
  | broken (breakage : Breakage)

/-- What the command printed and how it ended. -/
structure Transcript where
  printed : Printed
  ending : Ending

/-- What the command is to do. -/
inductive Task where
  | interact
  | script (path : String)
  | lines (path : String)
  | expression (text : String)
  | showUsage
  deriving DecidableEq, Repr

/-- An option with an empty value counts as not given. -/
def given (value : Option String) : Option String := value.filter (· ≠ "")

/-- The task, where several were asked for the first of: a session, a script, a
file by lines, an expression. -/
def Options.task (o : Options) : Task :=
  if o.interactive then .interact
  else match given o.script, given o.file, o.expression with
    | some path, _, _ => .script path
    | none, some path, _ => .lines path
    | none, none, some text => .expression text
    | none, none, none => .showUsage

def Options.session (o : Options) (draws : Nat → Float) : Session :=
  Session.start (Policy.usual o.maxIterations draws) (o.verbose != 0)

/-- The ending of program files. -/
def extension : String := ".pc"

/-- The reply to one line of an interactive session. There is none when the line
ends the session. -/
def reply? (s : Session) (line : String) : Option (Verdict × Printed × Session) :=
  if line = "exit()" ∨ line = "quit()" then none
  else if line = "vars()" then some (.fine, ⟨Session.listVariables s.table, ""⟩, s)
  else if line = "" then some (.fine, {}, s)
  else some (s.run line true)

/-- An interactive session over lines of input. -/
def interact (s : Session) : List (List Char) → Transcript
  | [] => ⟨⟨prompt, ""⟩, .status 0⟩
  | line :: rest =>
    match reply? s (String.ofList (Text.strip line)) with
    | none => ⟨⟨prompt, ""⟩, .status 0⟩
    | some (.broken failure, printed, _) => ⟨⟨prompt, ""⟩ ++ printed, .broken (.failure failure)⟩
    | some (_, printed, s) =>
      let after := interact s rest
      ⟨⟨prompt, ""⟩ ++ printed ++ after.printed, after.ending⟩

/-- Whether a line of a file, without white space around it, is carried out. -/
def isCarriedOut (line : List Char) : Bool :=
  !(line.isEmpty || "//".toList.isPrefixOf line || "#".toList.isPrefixOf line)

/-- The lines of a file that are carried out, without white space around them. -/
def workingLines (text : List Char) : List (List Char) :=
  ((Text.documentLines text).map Text.strip).filter isCarriedOut

/-- Carries out lines one after another and goes on after errors. `sick` says
whether one has failed already. -/
def runLines (s : Session) (sick : Bool) : List (List Char) → Transcript
  | [] => ⟨{}, .status (if sick then 1 else 0)⟩
  | line :: rest =>
    let text := String.ofList line
    let remark : Printed := ⟨"", s.report.remark ["-", text]⟩
    match s.run text true with
    | (.broken failure, printed, _) => ⟨remark ++ printed, .broken (.failure failure)⟩
    | (.fine, printed, s) =>
      let after := runLines s sick rest
      ⟨remark ++ printed ++ after.printed, after.ending⟩
    | (.failed, printed, s) =>
      let after := runLines s true rest
      ⟨remark ++ printed ++ after.printed, after.ending⟩

/-- Carries out a single text, which decides the status. -/
def runText (s : Session) (text : String) (asProgram : Bool) : Transcript :=
  match s.run text asProgram with
  | (.broken failure, printed, _) => ⟨printed, .broken (.failure failure)⟩
  | (.fine, printed, _) => ⟨printed, .status 0⟩
  | (.failed, printed, _) => ⟨printed, .status 1⟩

/-- Reads a program file and goes on with its text. The bytes are given, or the
reason why there are none. -/
def withProgram (s : Session) (path : String) (contents : Except String ByteArray)
    (next : List Char → Transcript) : Transcript :=
  if !extension.toList.isSuffixOf path.toList then
    ⟨⟨"", "File must have " ++ extension ++ " extension: " ++ path ++ "\n"⟩, .status 1⟩
  else
    let remark : Printed := ⟨"", s.report.remark ["Executing file:", path]⟩
    match contents with
    | .error reason =>
      ⟨remark ++ ⟨"", "Cannot read " ++ path ++ ": " ++ reason ++ "\n"⟩, .status 1⟩
    | .ok bytes =>
      match String.fromUTF8? bytes with
      | none => ⟨remark, .broken .undecodable⟩
      | some text =>
        let after := next (Text.unifyFeeds text.toList)
        ⟨remark ++ after.printed, after.ending⟩

/-- Carries out a task, given the contents of files and the input. -/
def Task.run (s : Session) (files : String → Except String ByteArray) (input : String) :
    Task → Transcript
  | .interact =>
    let after := CommandLine.interact s (Text.inputLines input.toList)
    ⟨⟨greeting, ""⟩ ++ after.printed, after.ending⟩
  | .script path =>
    withProgram s path (files path) fun text => runText s (String.ofList text) true
  | .lines path =>
    withProgram s path (files path) fun text => runLines s false (workingLines text)
  | .expression text => runText s text false
  | .showUsage => ⟨⟨usage, ""⟩, .status 0⟩

/-- The whole command: its arguments, the contents of files, the input, and the
stream of random numbers. -/
def run (args : List String) (files : String → Except String ByteArray) (input : String)
    (draws : Nat → Float) : Transcript :=
  if args.isEmpty then ⟨⟨introduction, ""⟩, .status 0⟩
  else match Options.ofArguments args with
    | .error .help => ⟨⟨help, ""⟩, .status 0⟩
    | .error (.invalid message) => ⟨⟨"", rejection message⟩, .status 2⟩
    | .ok options => options.task.run (options.session draws) files input

end Reckoner.CommandLine
