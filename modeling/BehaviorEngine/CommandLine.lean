import BehaviorEngine.Integer
import BehaviorEngine.Limits

/-!
The arguments of the program that runs intermediate code against a simulated environment. Options
have long names and one value each, behind an equals sign or as the next argument; an argument
that begins with a dash is never taken for the value of the one before. The file of the
intermediate code is the only other argument.
-/

namespace BehaviorEngine

namespace CommandLine

/-- What a run is asked for. -/
structure Settings where
  environmentFile : Option String := none
  cycles : Nat := 1
  agent : Option String := none
  /-- Milliseconds between two cycles. -/
  step : Nat := 100
  wordLength : Nat := Limits.standard.wordLength
  deriving DecidableEq, Repr

/-- An option of the command line. -/
inductive Flag where
  | environmentFile
  | cycles
  | agent
  | step
  | wordLength
  deriving DecidableEq, Repr

namespace Flag

/-- The long name of an option, without dashes. -/
def name : Flag → String
  | environmentFile => "env"
  | cycles => "cycles"
  | agent => "agent"
  | step => "step-ms"
  | wordLength => "max-token-length"

/-- The option of a long name. -/
def ofName? (text : String) : Option Flag :=
  [environmentFile, cycles, agent, step, wordLength].find? fun f => f.name = text

/-- Stores the value of an option, if it is valid. -/
def store? (f : Flag) (s : Settings) (value : String) : Option Settings :=
  match f with
  | environmentFile => if value.isEmpty then none else some { s with environmentFile := value }
  | cycles => (readCount? value).map fun n => { s with cycles := n }
  | agent => some { s with agent := value }
  | step => (readCount? value).map fun n => { s with step := n }
  | wordLength => (readCount? value).map fun n => { s with wordLength := n }

end Flag

/-- What arguments ask for. -/
inductive Request where
  | help
  | run (settings : Settings) (sourceFile : String)
  deriving DecidableEq, Repr

/-- What has been read of the arguments. -/
structure Progress where
  settings : Settings := {}
  given : List Flag := []
  sourceFile : Option String := none

/-- Takes the value of an option, which may be given only once. -/
def Progress.setFlag? (p : Progress) (f : Flag) (value : String) : Option Progress :=
  if f ∈ p.given then none
  else (f.store? p.settings value).map fun s => { p with settings := s, given := f :: p.given }

/-- Takes the file of the intermediate code. -/
def Progress.setFile? (p : Progress) (path : String) : Option Progress :=
  if p.sourceFile.isSome || path.isEmpty then none else some { p with sourceFile := path }

/-- The request at the end of the arguments. -/
def Progress.finish? (p : Progress) : Option Request :=
  p.sourceFile.map fun path => .run p.settings path

/-- The name of an option and the value behind the equals sign, if there is one. -/
def splitFlag (cs : List Char) : String × Option String :=
  let name := String.ofList (cs.takeWhile (· ≠ '='))
  match cs.dropWhile (· ≠ '=') with
  | [] => (name, none)
  | _ :: value => (name, some (String.ofList value))

/-- Reads the arguments behind two dashes. -/
def readFiles? (p : Progress) : List String → Option Request
  | [] => p.finish?
  | path :: rest => do readFiles? (← p.setFile? path) rest

/-- Whether an argument begins with a dash and is more than that. -/
def isDashed (argument : String) : Bool :=
  argument.toList.head? = some '-' && argument ≠ "-"

/-- Reads arguments; there is no request if they are not valid. -/
def read? (p : Progress) : List String → Option Request
  | [] => p.finish?
  | "--" :: rest => readFiles? p rest
  | argument :: rest =>
    match argument.toList with
    | '-' :: '-' :: cs =>
      let (name, attached) := splitFlag cs
      match Flag.ofName? name, attached, rest with
      | some f, some value, rest => do read? (← p.setFlag? f value) rest
      | some f, none, value :: rest =>
        if isDashed value then none else do read? (← p.setFlag? f value) rest
      | some _, none, [] => none
      | none, none, _ => if name = "help" then some .help else none
      | none, some _, _ => none
    | ['-'] => do read? (← p.setFile? argument) rest
    | '-' :: c :: _ => if c = 'h' then some .help else none
    | _ => do read? (← p.setFile? argument) rest

/-- What arguments ask for, if they are valid. -/
def request? (arguments : List String) : Option Request := read? {} arguments

/-- The lines that explain the arguments. -/
def helpLines : List String := [
  "Execute Xabsl intermediate code",
  "",
  "Usage: xabsl-cli [OPTIONS] <IC_FILE>",
  "",
  "Arguments:",
  "  <IC_FILE>  Intermediate code file",
  "",
  "Options:",
  "      --env <ENV>",
  "          Environment file declaring symbols, enumerations and basic behaviors",
  "      --cycles <CYCLES>",
  "          Number of cycles to execute [default: 1]",
  "      --agent <AGENT>",
  "          Agent whose root option is executed (default: the first agent)",
  "      --step-ms <STEP_MS>",
  "          Simulated milliseconds between two cycles [default: 100]",
  "      --max-token-length <MAX_TOKEN_LENGTH>",
  "          Longest accepted token of the intermediate code, in bytes [default: 100]",
  "  -h, --help",
  "          Print help"]

end CommandLine

end BehaviorEngine
