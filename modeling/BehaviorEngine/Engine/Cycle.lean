import BehaviorEngine.Engine.Activation

/-!
The run of a cycle. The root option runs the actions of its active state and then its decision
tree; actions assign output symbols and run basic behaviors and further options, each of these at
most once in a cycle. The state that a decision tree selects runs in the next cycle.

An option is marked before its actions run, so options that are nested in one another are
distinct, and the nesting is no deeper than there are options.
-/

namespace BehaviorEngine

/-- What intermediate code and host together prescribe. -/
structure Program (σ : Type) where
  environment : Environment σ
  graph : Graph

/-- What changes in the course of a cycle. -/
structure Machine (σ : Type) where
  store : Store σ
  options : List Activation
  /-- The cycle of the last run of each basic behavior, unless it is forgotten. -/
  behaviors : List (Option Nat)
  /-- The output symbols assigned in the cycle, the last one first. -/
  assigned : PerDomain fun _ => List Nat

/-- A part of the run of a cycle. It stops only if a position in the graph leads nowhere. -/
abbrev Run (σ : Type) (α : Type) := StateT (Machine σ) Option α

namespace Run

variable {σ : Type} {α : Type}

/-- Evaluates within a run. -/
def evaluate (x : Evaluate σ α) : Run σ α := fun m => do
  let (a, store) ← x m.store
  return (a, { m with store })

/-- The state of an option. -/
def activation (i : Nat) : Run σ Activation := do
  (← get).options[i]?

/-- Changes the state of an option. -/
def modifyActivation (i : Nat) (f : Activation → Activation) : Run σ Unit :=
  modify fun m => { m with options := m.options.modify i f }

/-- Whether an option ran lately and rests in a target state. -/
def restsInTarget (graph : Graph) (options : List Activation) (cycle i : Nat) : Option Bool := do
  let a ← options[i]?
  if a.ranLately cycle then
    let node ← graph.options.at? i
    let state ← node.states.at? a.active
    return state.isTarget
  else return false

/-- What expressions in a state of the option `i` read. -/
def surroundings (p : Program σ) (c : Cycle) (i : Nat) (state : Graph.State) :
    Run σ (Surroundings σ) := do
  let m ← get
  let a ← activation i
  let stateTime ← a.stateTime? a.executed
  return {
    symbols := p.environment.symbols
    parameters := a.parameters
    stateTime
    optionTime := a.elapsed
    reachedTarget := state.activated.anyM (restsInTarget p.graph m.options c.number) }

/-- Evaluates the bindings of a call site whose target keeps its parameters itself. -/
def argumentsAt (s : Surroundings σ) (site : Path) (bindings : List Binding) :
    Evaluate σ (List Argument) := do
  let arguments ← Binding.values s site (fun _ => pure ()) 0 bindings
  let _ ← Evaluate.remember site arguments
  return arguments

/-- Runs an action of a state of the option `i`; `runOption` runs another option. -/
def action (p : Program σ) (c : Cycle) (runOption : Nat → Run σ Unit) (i : Nat)
    (state : Graph.State) (site : Path) : Action → Run σ Unit
  | .activate target bindings => do
    if (← activation target).ranIn c.number then return
    let s ← surroundings p c i state
    let arguments ← evaluate (argumentsAt s site bindings)
    let before ← activation target
    let bound ← (arguments.foldlM Activation.bind? before : Option Activation)
    modifyActivation target fun _ => bound
    runOption target
  | .behave target bindings => do
    let last ← (← get).behaviors[target]?
    if last = some c.number then return
    let behavior ← p.environment.behaviors.at? target
    let s ← surroundings p c i state
    let arguments ← evaluate <|
      Binding.values s site (Evaluate.writeSlot behavior.parameters) 0 bindings
    let changed ← evaluate (Evaluate.remember site arguments)
    modify fun m => { m with behaviors := m.behaviors.set target (some c.number) }
    if changed then evaluate (Evaluate.host behavior.parametersChanged)
    evaluate (Evaluate.host behavior.run)
  | .assign (d := d) k expression => do
    let s ← surroundings p c i state
    let x ← evaluate (expression.value s site)
    let symbol ← (p.environment.symbols.outputs.get d).at? k
    evaluate (Evaluate.host (symbol.binding.write x))
    modify fun m => { m with assigned := m.assigned.modify d (k :: ·) }

/-- Runs an option that has not run in the cycle. -/
def unranOption (p : Program σ) (c : Cycle) (runOption : Nat → Run σ Unit) (i : Nat) :
    Run σ Unit := do
  let node ← p.graph.options.at? i
  modifyActivation i fun a => a.start c node.initial
  let active := (← activation i).executed
  let state ← node.states.at? active
  state.actions.zipIdx.forM fun (a, k) => action p c runOption i state [k, active, i] a
  let s ← surroundings p c i state
  let next ← evaluate (state.decision.select s [state.actions.length, active, i])
  let _ ← node.states.at? next
  modifyActivation i fun a => a.finish c next

/-- Runs an option, unless it ran in the cycle already, with options nested at most `depth`
deep. -/
def option (p : Program σ) (c : Cycle) : (depth : Nat) → Nat → Run σ Unit
  | 0, _ => failure
  | depth + 1, i => do
    if (← activation i).ranIn c.number then return
    unranOption p c (option p c depth) i

end Run

end BehaviorEngine
