import Reckoner.CommandLine
import Reckoner.Random

/-! The command as a program. Everything it decides is decided elsewhere: here
files and lines are read, and texts are written. -/
namespace Reckoner.CommandLine

/-- Why a file cannot be read, in the words of the system. -/
def reason : IO.Error → String
  | .noFileOrDirectory .. => "No such file or directory"
  | .permissionDenied .. => "Permission denied"
  | .inappropriateType .. => "Is a directory"
  | e => toString e

def readContents (path : String) : IO (Except String ByteArray) := do
  try
    return .ok (← IO.FS.readBinFile path)
  catch e =>
    return .error (reason e)

def write (printed : Printed) : IO Unit := do
  let out ← IO.getStdout
  out.putStr printed.out
  out.flush
  IO.eprint printed.err

/-- Tells why the command broke off, and gives its status. -/
def breakOff : Breakage → IO UInt32
  | .failure .undefinedRemainder => do
    IO.eprintln "math domain error"
    return 1
  | .failure _ => do
    IO.eprintln "gave up"
    return 1
  | .undecodable => do
    IO.eprintln "not a text in UTF-8"
    return 1

/-- Holds an interactive session line by line. -/
partial def converse (s : Session) : IO UInt32 := do
  write ⟨prompt, ""⟩
  let line ← (← IO.getStdin).getLine
  if line.isEmpty then return 0
  match reply? s (String.ofList (Text.strip line.toList)) with
  | none => return 0
  | some (.broken failure, printed, _) => do
    write printed
    breakOff (.failure failure)
  | some (_, printed, s) => do
    write printed
    converse s

/-- Carries out the command with the given arguments. -/
def runCommand (args : List String) : IO UInt32 := do
  let bytes ← IO.getRandomBytes 8
  let seed := bytes.foldl (fun n b => n * 256 + b.toUInt64) 0
  let draws := Random.stream seed
  match Options.ofArguments args with
  | .ok options =>
    if args.isEmpty || options.task != .interact then
      let contents ← match options.task with
        | .script path | .lines path => readContents path
        | _ => pure (.error "")
      finish (run args (fun _ => contents) "" draws)
    else
      write ⟨greeting, ""⟩
      converse (options.session draws)
  | .error _ => finish (run args (fun _ => .error "") "" draws)
where
  finish (transcript : Transcript) : IO UInt32 := do
    write transcript.printed
    match transcript.ending with
    | .status code => return code.toUInt32
    | .broken breakage => breakOff breakage

end Reckoner.CommandLine

def main (args : List String) : IO UInt32 :=
  Reckoner.CommandLine.runCommand args
