import Reckoner.Text.Blank
import Reckoner.Text.Digits
import Reckoner.Text.Quoted

/-! The arguments of the command. Options may stand anywhere before `--`, long
ones may be shortened as long as they stay unique, and short ones may share a
dash. The one argument that is no option is an expression; any other is an
error, and so is an option that does not exist. -/
namespace Reckoner.CommandLine

inductive Flag where
  | help | interactive | file | script | verbose | maxIterations
  deriving DecidableEq, Repr

/-- How each option may be spelled in full, in the order in which they are listed. -/
def spellings : List (String × Flag) :=
  [("-h", .help), ("--help", .help), ("-i", .interactive), ("--interactive", .interactive),
   ("-f", .file), ("--file", .file), ("-s", .script), ("--script", .script),
   ("-v", .verbose), ("--verbose", .verbose), ("--max-iterations", .maxIterations)]

def Flag.takesValue : Flag → Bool
  | .file | .script | .maxIterations => true
  | .help | .interactive | .verbose => false

/-- The option as error messages name it. -/
def Flag.label (flag : Flag) : String :=
  "/".intercalate ((spellings.filter fun (_, f) => f = flag).map (·.1))

/-- An argument as it stands among the others. -/
inductive Word where
  | plain (text : String)
  | separator
  /-- An option, whether it has a single dash, and what is attached to it. An
  equals sign belongs to what is attached. -/
  | option (flag : Flag) (short : Bool) (attached : List Char)
  | unknown (text : String)

/-- The part before the first `=`, and the rest. -/
def splitEquals (cs : List Char) : List Char × List Char :=
  (cs.takeWhile (· != '='), cs.dropWhile (· != '='))

/-- Whether the text is a negative number, with or without a fraction. A line
feed may follow. -/
def looksNegative : List Char → Bool
  | '-' :: rest =>
    let digits := if rest.getLast? = some '\n' then rest.dropLast else rest
    let isDigit (c : Char) : Bool := (Text.digitValue? c).isSome
    let fraction := (digits.dropWhile isDigit)
    match fraction with
    | [] => !digits.isEmpty
    | '.' :: places => !places.isEmpty && places.all isDigit
    | _ => false
  | _ => false

/-- The options of which the text could be a shortened form. -/
def candidates (name : List Char) : List (String × Flag) :=
  spellings.filter fun (spelling, _) => name.isPrefixOf spelling.toList

/-- Whether an option is spelled with a single dash. -/
def isShort (name : List Char) : Bool := name[1]? != some '-'

/-- An argument that begins with a dash and is no option as it stands. -/
def classifyLoose (cs : List Char) : Word :=
  if looksNegative cs || cs.contains ' ' then .plain (String.ofList cs)
  else .unknown (String.ofList cs)

/-- What an argument before `--` is. A shortened option that could be several is
an error. -/
def classify (arg : String) : Except String Word :=
  let cs := arg.toList
  let known? (name : List Char) : Option Flag := spellings.lookup (String.ofList name)
  let (name, attached) := splitEquals cs
  match cs with
  | '-' :: rest =>
    match known? name, rest with
    | some flag, _ => .ok (.option flag (isShort name) attached)
    | none, [] => .ok (.plain arg)
    | none, '-' :: _ =>
      match candidates name with
      | [] => .ok (classifyLoose cs)
      | [(_, flag)] => .ok (.option flag false attached)
      | several => .error
          ("ambiguous option: " ++ arg ++ " could match " ++ ", ".intercalate (several.map (·.1)))
    | none, c :: attached =>
      match known? ['-', c] with
      | some flag => .ok (.option flag true attached)
      | none => .ok (classifyLoose cs)
  | _ => .ok (.plain arg)

/-- What the arguments are. All that follow `--` are plain. -/
def classifyAll : List String → Except String (List Word)
  | [] => .ok []
  | arg :: rest =>
    if arg = "--" then .ok (.separator :: rest.map .plain)
    else do
      let word ← classify arg
      let words ← classifyAll rest
      .ok (word :: words)

/-- What was asked for. -/
structure Options where
  expression : Option String := none
  interactive : Bool := false
  file : Option String := none
  script : Option String := none
  verbose : Nat := 0
  maxIterations : Option Int := none

/-- Why the arguments lead no further. -/
inductive Exit where
  | help
  | invalid (message : String)

/-- The whole number that a text spells, with white space around it or not. The
separators of files, groups, records and units are no white space here. -/
def integer? (text : String) : Option Int :=
  let isSpace (c : Char) : Bool := Text.isBlank c && !(28 ≤ c.toNat && c.toNat ≤ 31)
  let cs := (text.toList.dropWhile isSpace).reverse.dropWhile isSpace
  Text.integer? cs.reverse

/-- Follows one option. Only those that take a value look at it. -/
def Options.follow (o : Options) (flag : Flag) (value : String) : Except Exit Options :=
  match flag with
  | .help => .error .help
  | .interactive => .ok { o with interactive := true }
  | .verbose => .ok { o with verbose := o.verbose + 1 }
  | .file => .ok { o with file := some value }
  | .script => .ok { o with script := some value }
  | .maxIterations =>
    match integer? value with
    | some n => .ok { o with maxIterations := some n }
    | none => .error (.invalid
        ("argument " ++ flag.label ++ ": invalid int value: " ++ Text.quoted value))

/-- The options that share one argument: those that take no value, then perhaps
one that takes the rest as its value or still wants one. What no option can be
read from is left over. -/
structure Bundle where
  flags : List Flag := []
  valued : Option (Flag × Option String) := none
  leftover : List String := []

def Bundle.ofFlag (flag : Flag) (value : Option String) : Bundle :=
  if flag.takesValue then { valued := some (flag, value) } else { flags := [flag] }

def Bundle.cons (flag : Flag) (b : Bundle) : Bundle := { b with flags := flag :: b.flags }

/-- The error of an option that can make nothing of what is attached to it. -/
def ignored (flag : Flag) (attached : List Char) : Except Exit Bundle :=
  .error (.invalid ("argument " ++ flag.label ++ ": ignored explicit argument " ++
    Text.quoted (String.ofList attached)))

/-- The value that is attached to an option, if one is. -/
def attachedValue : List Char → Option String
  | [] => none
  | '=' :: value => some (String.ofList value)
  | value => some (String.ofList value)

/-- Reads more options out of what is attached to one that takes no value. That
is only possible after a single dash and without an equals sign. -/
def unpack (flag : Flag) (short : Bool) : List Char → Except Exit Bundle
  | [] => .ok (Bundle.ofFlag flag none)
  | '=' :: value => ignored flag value
  | c :: rest =>
    if !short || c == '-' then ignored flag (c :: rest)
    else match spellings.lookup (String.ofList ['-', c]) with
      | none => .ok { flags := [flag], leftover := [String.ofList ('-' :: c :: rest)] }
      | some next =>
        if next.takesValue then .ok ((Bundle.ofFlag next (attachedValue rest)).cons flag)
        else (unpack next true rest).map (·.cons flag)

/-- The options of one argument. -/
def bundle (flag : Flag) (short : Bool) (attached : List Char) : Except Exit Bundle :=
  if flag.takesValue then .ok (Bundle.ofFlag flag (attachedValue attached))
  else unpack flag short attached

/-- Follows the options of one argument, given the value that is still wanted. -/
def Options.followBundle (o : Options) (b : Bundle) (wanted : String) : Except Exit Options := do
  let o ← b.flags.foldlM (fun o flag => o.follow flag "") o
  match b.valued with
  | some (flag, value) => o.follow flag (value.getD wanted)
  | none => .ok o

/-- How far the arguments have been gone through: whether the expression is
settled, and what was left over. -/
structure Progress where
  options : Options := {}
  settled : Bool := false
  extras : List String := []

def Word.text : Word → String
  | .plain text => text
  | .separator => "--"
  | .option .. => ""
  | .unknown text => text

def Progress.leave (p : Progress) (words : List Word) : Progress :=
  { p with extras := p.extras ++ words.map Word.text }

def Progress.settle (p : Progress) (expression : Option String) : Progress :=
  { p with options := { p.options with expression := expression }, settled := true }

/-- Goes through the arguments. The first plain one is the expression, and a
separator right after it belongs to it. -/
def consume (p : Progress) : List Word → Except Exit Progress
  | [] => .ok p
  | .plain text :: .separator :: rest =>
    if p.settled then .ok (p.leave (.plain text :: .separator :: rest))
    else .ok ((p.settle (some text)).leave rest)
  | .plain text :: rest =>
    if p.settled then consume (p.leave [.plain text]) rest
    else consume (p.settle (some text)) rest
  | .separator :: .plain text :: rest =>
    if p.settled then .ok (p.leave (.separator :: .plain text :: rest))
    else .ok ((p.settle (some text)).leave rest)
  | .separator :: rest =>
    if p.settled then .ok (p.leave (.separator :: rest)) else .ok ((p.settle none).leave rest)
  | .unknown text :: rest => consume (p.leave [.unknown text]) rest
  | .option flag short attached :: .plain text :: rest => do
    let b ← bundle flag short attached
    let p := { p with extras := p.extras ++ b.leftover }
    let options ← p.options.followBundle b text
    match b.valued with
    | some (_, none) => consume { p with options := options } rest
    | _ => consume { p with options := options } (.plain text :: rest)
  | .option flag short attached :: rest => do
    let b ← bundle flag short attached
    let p := { p with extras := p.extras ++ b.leftover }
    match b.valued with
    | some (flag, none) =>
      .error (.invalid ("argument " ++ flag.label ++ ": expected one argument"))
    | _ =>
      let options ← p.options.followBundle b ""
      consume { p with options := options } rest

/-- Reads the arguments of the command. -/
def Options.ofArguments (args : List String) : Except Exit Options :=
  match classifyAll args with
  | .error message => .error (.invalid message)
  | .ok words => do
    let p ← consume {} words
    if p.extras.isEmpty then .ok p.options
    else .error (.invalid ("unrecognized arguments: " ++ " ".intercalate p.extras))

end Reckoner.CommandLine
