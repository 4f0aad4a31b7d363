import BehaviorEngine.CommandLine
import BehaviorEngine.Engine.Basic
import BehaviorEngine.EnvironmentFile.Registration
import BehaviorEngine.Error.Report

/-!
Simulated runs: an environment file and intermediate code are loaded, a number of cycles is run
under a clock that advances by a fixed step, and after each cycle what ran and what was assigned
is written down.
-/

namespace BehaviorEngine

namespace Simulation

open CommandLine

/-- How a run of the program ends. -/
structure Outcome where
  exitCode : Nat
  /-- The lines of the standard output. -/
  output : List String
  /-- What is said in front of the error. -/
  title : Option String := none
  error : Option String := none
  deriving DecidableEq, Repr

/-- A run that ends with an error. -/
def failed (title : Option String) (error : String) : Outcome := ⟨1, [], title, some error⟩

/-- A run that the arguments do not allow. -/
def refused : Outcome := ⟨2, [], none, none⟩

/-- The engine of a simulation has no host beyond the cells. -/
abbrev Simulated := Engine Unit

/-- The line of an output symbol. -/
def outputLine? (e : Simulated) {d : Domain} (name : String) (symbol : OutputSymbol Unit d) :
    Option String :=
  (ShownValue.of? e.environment.symbols symbol.typing (e.readOutput symbol).1).map fun value =>
    s!"  {name} = {value.text}"

/-- The lines of the output symbols of a domain that were assigned in the last cycle. -/
def assignedLines? (e : Simulated) (d : Domain) : Option (List String) :=
  let assigned := (e.environment.symbols.outputs.get d).entries.zipIdx.filter fun (_, k) =>
    e.wasSet d k
  assigned.mapM fun ((name, symbol), _) => outputLine? e name symbol

/-- The lines that are written after a cycle. -/
def cycleLines? (e : Simulated) (now : Nat) : Option (List String) := do
  let (entries, _) ← e.activeBehaviors?
  let assigned ← Domain.all.mapM (assignedLines? e)
  return [s!"cycle {e.cycle} ({now} ms)"] ++ entries.map ActiveBehavior.line ++
    ["outputs:"] ++ assigned.flatten

/-- The reading of the clock one step later; the clock has 64 bits. -/
def later (now step : Nat) : Nat := (now + step) % UInt64.size

/-- Runs a cycle at a reading of the clock; the lines are those that are written after it. -/
def cycle (now : Nat) : Operate Unit (List String) := do
  Operate.execute now
  match cycleLines? (← get) now with
  | some lines => return lines
  | none => throw .brokenReference

/-- Runs cycles, the first one at the given reading of the clock. -/
def runCycles (step : Nat) : (cycles : Nat) → (now : Nat) → Simulated → List String → Outcome
  | 0, _, _, output => ⟨0, output, none, none⟩
  | n + 1, now, e, output =>
    match (cycle now).runOn e with
    | (.ok lines, e) => runCycles step n (later now step) e (output ++ lines)
    | (.error reason, _) => { failed none (Failure.misuse reason).message with output }

/-- Selects the agent of the settings. -/
def selectAgent (s : Settings) : Operate Unit Unit :=
  match s.agent with
  | some name => Operate.selectAgent name
  | none => pure ()

/-- Builds the graph and runs the cycles. -/
def runGraph (s : Settings) (e : Simulated) (source : String) : Outcome :=
  match e.create source with
  | (.error error, _) =>
    let report := Report.of (Failure.ofConstruction error source)
    failed report.title "failed to build the option graph"
  | (.ok (), e) =>
    match (selectAgent s).runOn e with
    | (.ok (), e) => runCycles s.step s.cycles 0 e []
    | (.error reason, _) => failed none (Failure.misuse reason).message

/-- Runs what the settings ask for; `read` gives the text of a file. -/
def runSettings (read : String → Option String) (s : Settings) (sourceFile : String) : Outcome :=
  let declarations : Except Outcome (List EnvironmentFile.Declaration) :=
    match s.environmentFile with
    | none => .ok []
    | some path =>
      match read path with
      | none => .error (failed none s!"failed to read {path}")
      | some text =>
        (EnvironmentFile.parse text).mapError fun e =>
          failed (some s!"Error: {e.problem.code}") e.message
  match declarations with
  | .error outcome => outcome
  | .ok declarations =>
    match read sourceFile with
    | none => failed none s!"failed to read {sourceFile}"
    | some source =>
      match EnvironmentFile.setUp declarations () with
      | .error e => failed (Report.of (.registration e)).title "invalid environment"
      | .ok (environment, world) =>
        let limits := { Limits.standard with wordLength := s.wordLength }
        runGraph s (Engine.new limits environment world) source

/-- Runs the program with its arguments; `read` gives the text of a file. -/
def run (read : String → Option String) (arguments : List String) : Outcome :=
  match request? arguments with
  | none => refused
  | some .help => ⟨0, helpLines, none, none⟩
  | some (.run s sourceFile) => runSettings read s sourceFile

end Simulation

end BehaviorEngine
