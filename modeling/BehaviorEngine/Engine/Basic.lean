import BehaviorEngine.Construction.Graph
import BehaviorEngine.Error.Failure
import BehaviorEngine.Engine.Snapshot

/-!
The engine: an environment, the option graph that was built for it last, and what its cycles have
left behind. A call that fails comes back with the engine as it stands then.
-/

namespace BehaviorEngine

/-- A graph in use. -/
structure Loaded where
  graph : Graph
  root : Nat
  /-- The agent whose option is the root, unless the root was selected by itself. -/
  agent : Option Nat
  options : List Activation
  memory : Memory

/-- An engine and its host. -/
structure Engine (σ : Type) where
  limits : Limits
  environment : Environment σ
  world : World σ
  loaded : Option Loaded
  /-- The number of cycles that have run. -/
  cycle : Nat
  /-- The cycle of the last run of each basic behavior, unless it is forgotten. -/
  behaviors : List (Option Nat)
  /-- The output symbols assigned in the last cycle, the last one first. -/
  assigned : PerDomain fun _ => List Nat

/-- A graph that has not run yet. -/
def Loaded.ofGraph (g : Graph) : Loaded where
  graph := g
  root := g.defaultRoot
  agent := if g.agents.isEmpty then none else some 0
  options := g.options.values.map Activation.ofNode
  memory := Memory.empty

namespace Engine

variable {σ : Type}

/-- An engine without a graph. -/
def new (limits : Limits) (environment : Environment σ) (world : World σ) : Engine σ where
  limits := limits
  environment := environment
  world := world
  loaded := none
  cycle := 0
  behaviors := environment.behaviors.values.map fun _ => none
  assigned := PerDomain.ofFn fun _ => []

/-- The engine without the memory of what ran when, so that every option starts over. -/
def reset (e : Engine σ) : Engine σ :=
  { e with
    loaded := e.loaded.map fun l => { l with options := l.options.map Activation.forget }
    behaviors := e.behaviors.map fun _ => none }

/-- Replaces the graph by the one that a source describes. -/
def create (e : Engine σ) (source : String) : Except ConstructionError Unit × Engine σ :=
  match Graph.ofSource e.limits e.environment source with
  | .ok g => (.ok (), { e with loaded := some (Loaded.ofGraph g) }.reset)
  | .error error => (.error error, { e with loaded := none })

/-- What a cycle starts from. -/
def machine (e : Engine σ) (l : Loaded) : Machine σ where
  store := ⟨e.world, l.memory⟩
  options := l.options
  behaviors := e.behaviors
  assigned := e.assigned

/-- The engine with what a cycle has left behind. -/
def withMachine (e : Engine σ) (l : Loaded) (m : Machine σ) : Engine σ :=
  { e with
    world := m.store.world
    loaded := some { l with options := m.options, memory := m.store.memory }
    behaviors := m.behaviors
    assigned := m.assigned }

/-- Forgets which output symbols have been assigned. -/
def resetOutputs (e : Engine σ) : Engine σ := { e with assigned := PerDomain.ofFn fun _ => [] }

end Engine

/-! ### Operations -/

/-- A use of the engine, which changes it and may be refused. What it did before it was refused
stays done. -/
abbrev Operate (σ : Type) (α : Type) := Stateful (Engine σ) Misuse α

namespace Operate

variable {σ : Type}

/-- The graph in use. -/
def graphInUse : Operate σ Loaded := do
  match (← get).loaded with
  | some l => return l
  | none => throw .noGraph

/-- Changes what belongs to the graph in use. -/
def modifyLoaded (f : Loaded → Loaded) : Operate σ Unit :=
  modify fun e => { e with loaded := e.loaded.map f }

/-- Runs the root option of a graph, and what it activates. -/
def runRoot (l : Loaded) (cycle : Cycle) : Operate σ Unit := do
  let e ← get
  let program : Program σ := ⟨e.environment, l.graph⟩
  match (Run.option program cycle l.graph.options.size l.root).run (e.machine l) with
  | some ((), m) => set (e.withMachine l m)
  | none => throw .brokenReference

/-- Runs a cycle at a reading of the clock. -/
def execute (now : Nat) : Operate σ Unit := do
  let l ← graphInUse
  let number := (← get).cycle + 1
  modify Engine.resetOutputs
  runRoot l ⟨number, now⟩
  modify fun e => { e with cycle := number }

/-- Makes the option of an agent the root option. -/
def selectAgent (name : String) : Operate σ Unit := do
  let l ← graphInUse
  match l.graph.agents.find? name with
  | some (agent, root) =>
    modifyLoaded fun l => { l with root }
    modifyLoaded fun l => { l with agent }
  | none => throw (.unknownAgent name)

/-- Makes an option the root option, whatever agent was selected. -/
def selectRoot (name : String) : Operate σ Unit := do
  let l ← graphInUse
  match l.graph.options.position? name with
  | some root =>
    modifyLoaded fun l => { l with root }
    modifyLoaded fun l => { l with agent := none }
  | none => throw (.unknownOption name)

end Operate

namespace Engine

variable {σ : Type}

/-- Runs a cycle at a reading of the clock. -/
def execute (e : Engine σ) (now : Nat) : Except Misuse Unit × Engine σ :=
  (Operate.execute now).runOn e

/-- Makes the option of an agent the root option. -/
def selectAgent (e : Engine σ) (name : String) : Except Misuse Unit × Engine σ :=
  (Operate.selectAgent name).runOn e

/-- Makes an option the root option, whatever agent was selected. -/
def selectRoot (e : Engine σ) (name : String) : Except Misuse Unit × Engine σ :=
  (Operate.selectRoot name).runOn e

/-! ### What can be seen -/

/-- The name of the selected agent. -/
def agentName? (e : Engine σ) : Option String := do
  let l ← e.loaded
  l.graph.agents.name? (← l.agent)

/-- The name of the root option. -/
def rootName? (e : Engine σ) : Option String := do
  let l ← e.loaded
  l.graph.options.name? l.root

/-- Whether an output symbol was assigned in the last cycle. -/
def wasSet (e : Engine σ) (d : Domain) (symbol : Nat) : Bool := (e.assigned.get d).contains symbol

/-- Whether a basic behavior ran in the last cycle. -/
def behaviorRan (e : Engine σ) (behavior : Nat) : Bool :=
  (e.behaviors[behavior]?).any (· = some e.cycle)

/-- What ran in the last cycle, and the engine after the outputs were read. Before the first cycle
and without a graph that is nothing. -/
def activeBehaviors? (e : Engine σ) : Option (List ActiveBehavior × Engine σ) :=
  match e.loaded with
  | some l =>
    if e.cycle = 0 then some ([], e)
    else do
      let program : Program σ := ⟨e.environment, l.graph⟩
      let (entries, world) ←
        BehaviorEngine.activeBehaviors? program l.options e.cycle l.root e.world
      return (entries, { e with world })
  | none => some ([], e)

/-- What ran in the last cycle. -/
def activeBehaviors (e : Engine σ) : List ActiveBehavior × Engine σ :=
  e.activeBehaviors?.getD ([], e)

/-- The value of an output symbol, and the engine after it was read. -/
def readOutput (e : Engine σ) {d : Domain} (symbol : OutputSymbol σ d) : d.Value × Engine σ :=
  let (x, world) := symbol.binding.read e.world
  (x, { e with world })

/-- The value of an input symbol, and the engine after it was read. -/
def readInput (e : Engine σ) {d : Domain} (symbol : InputSymbol σ d) : d.Value × Engine σ :=
  let (x, world) := symbol.binding.read e.world
  (x, { e with world })

end Engine

end BehaviorEngine
