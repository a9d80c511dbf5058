import Skein.Interpreter

/-!
# The command line

The program runs a file, or its input when no file is named.  It can print the compiled
forms instead of running them, leave scope checks to the run, and limit the steps of each
level of the trampoline.  Options and the file may come in any order, each at most once;
after the argument `--` every argument is a file.
-/

namespace Skein.CommandLine

/-- What is asked for on the command line. -/
structure Options where
  /-- Print the compiled forms instead of running them. -/
  expand : Bool
  /-- Leave scope checks to the run. -/
  deferScopeChecks : Bool
  /-- How many steps a level may take. -/
  limit : Option Nat
  /-- The file to run. -/
  file : Option String
deriving Repr, DecidableEq

/-- Why a command line cannot be followed. -/
inductive Misuse where
  /-- An argument that is no option and not the one file. -/
  | unexpected (argument : String)
  /-- An option that is given twice. -/
  | repeated (option : String)
  /-- A number of steps that is missing or is no such number. -/
  | badLimit (text : String)
  /-- A file without a name. -/
  | namelessFile
deriving Repr, DecidableEq

/-- What is said about a misuse. -/
def Misuse.message : Misuse → String
  | .unexpected argument => "error: unexpected argument: " ++ argument
  | .repeated option => "error: repeated option: " ++ option
  | .badLimit text => "error: invalid step limit: " ++ text
  | .namelessFile => "error: a file without a name"

namespace Options

/-- What is asked for by an empty command line. -/
def default : Options := ⟨false, false, none, none⟩

/-- The number of steps that a text denotes: at least one digit, with or without a plus
before them, and a value of at most 64 bits. -/
def count? (s : String) : Option Nat :=
  let digits := match s.toList with
    | '+' :: cs => cs
    | cs => cs
  if digits.isEmpty || !digits.all Char.isDigit then none
  else
    let n := Number.ofDigits digits
    if n < UInt64.size then some n else none

/-- Ask for the compiled forms. -/
def withExpand (o : Options) : Except Misuse Options :=
  if o.expand then .error (.repeated "--expand") else .ok { o with expand := true }

/-- Ask for scope checks at the run. -/
def withDeferral (o : Options) : Except Misuse Options :=
  if o.deferScopeChecks then .error (.repeated "--defer-scope-checks")
  else .ok { o with deferScopeChecks := true }

/-- Ask for a limit of the steps of a level. -/
def withLimit (o : Options) (text : String) : Except Misuse Options :=
  match o.limit, count? text with
  | some _, _ => .error (.repeated "--step-limit")
  | none, none => .error (.badLimit text)
  | none, some n => .ok { o with limit := some n }

/-- Ask for a file to be run. -/
def withFile (o : Options) (path : String) : Except Misuse Options :=
  if o.file.isSome then .error (.unexpected path)
  else if path.isEmpty then .error .namelessFile
  else .ok { o with file := some path }

/-- Whether an argument before `--` is an option.  A lone dash is a file name. -/
def isOption (arg : String) : Bool := arg.startsWith "-" && arg != "-"

/-- Read a command line. -/
def ofArgs (o : Options) : List String → Except Misuse Options
  | [] => .ok o
  | "--" :: files => files.foldlM withFile o
  | "--expand" :: rest => do ofArgs (← o.withExpand) rest
  | "--defer-scope-checks" :: rest => do ofArgs (← o.withDeferral) rest
  | ["--step-limit"] => .error (.badLimit "")
  | "--step-limit" :: n :: rest => do ofArgs (← o.withLimit n) rest
  | arg :: rest => do
    match arg.dropPrefix? "--step-limit=" with
    | some n => ofArgs (← o.withLimit n.toString) rest
    | none =>
      if isOption arg then .error (.unexpected arg)
      else ofArgs (← o.withFile arg) rest

end Options

/-- How a run of the program ends: its exit code and what it writes. -/
structure Result where
  code : Nat
  stdout : String
  stderr : String
deriving Repr, DecidableEq

/-- The result of a request, with the text that a success adds to the output. -/
def conclude {α : Type} (text : α → String) : EStateM.Result Failure Interpreter α → Result
  | .ok a i => ⟨0, i.machine.out ++ text a, ""⟩
  | .error e i => ⟨1, i.machine.out, e.text ++ "\n"⟩

/-- The interpreter that is asked for. -/
def prepare (o : Options) : Request Unit := do
  modify fun i =>
    { i with
      deferScopeChecks := o.deferScopeChecks
      machine := { i.machine with limit := o.limit } }
  Interpreter.definePrimitives

/-- Run a source text. -/
def runSource (fuel : Nat) (o : Options) (source : String) : Result :=
  if o.expand then
    let lines (es : List Expr) := String.join (es.map fun e => e.text ++ "\n")
    conclude lines ((do prepare o; Interpreter.compileAll source : Request (List Expr)) .bare)
  else
    conclude (fun _ => "") ((do prepare o; Interpreter.evalAll fuel source : Request Value) .bare)

/-- Why a file cannot be read. -/
inductive Unreadable where
  /-- There is no such file. -/
  | missing
  /-- There is a directory of that name. -/
  | directory
  /-- The file does not hold UTF-8. -/
  | notText
  /-- Another reason, in words of its own. -/
  | other (reason : String)
deriving Repr, DecidableEq

/-- The reason that is given. -/
def Unreadable.reason : Unreadable → String
  | .missing => "No such file or directory (os error 2)"
  | .directory => "Is a directory (os error 21)"
  | .notText => "stream did not contain valid UTF-8"
  | .other reason => reason

/-- The result for a source that cannot be read. -/
def unreadable (path : String) (why : Unreadable) : Result :=
  ⟨1, "", "error: cannot read " ++ path ++ ": " ++ why.reason ++ "\n"⟩

/-- Run the program, where `contents` gives the text of a file, or why it cannot be
read. -/
def run (fuel : Nat) (args : List String) (stdin : String)
    (contents : String → Except Unreadable String) : Result :=
  match Options.ofArgs .default args with
  | .error misuse => ⟨2, "", misuse.message ++ "\n"⟩
  | .ok o =>
    match o.file with
    | none => runSource fuel o stdin
    | some path =>
      match contents path with
      | .ok source => runSource fuel o source
      | .error why => unreadable path why

end Skein.CommandLine
