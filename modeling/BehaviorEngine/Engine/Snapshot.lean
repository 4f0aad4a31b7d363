import BehaviorEngine.Decimal.Shortest
import BehaviorEngine.Engine.Cycle

/-!
Snapshots: what ran in the last cycle, depth first from the root option, as entries and as lines
of text. An entry is two blanks deeper for each activation above it.
-/

namespace BehaviorEngine

/-- A value as it is shown: enumerated values with the name of their element, if there is one. -/
inductive ShownValue where
  | decimal (value : Decimal)
  | boolean (value : Bool)
  | enumerated (value : Int32) (element : Option String)

namespace ShownValue

/-- The shown form of a value; that of an enumerated value takes its enumeration. -/
def of? {σ : Type} (symbols : Symbols σ) : {d : Domain} → d.Typing → d.Value → Option ShownValue
  | .decimal, _, x => some (.decimal x)
  | .boolean, _, b => some (.boolean b)
  | .enumerated, id, v =>
    (symbols.enumeration? id).map fun (_, elements) => .enumerated v (elements.elementName? v)

/-- The text of a value. -/
def text : ShownValue → String
  | decimal x => x.text
  | boolean b => if b then "true" else "false"
  | enumerated _ (some element) => element
  | enumerated v none => toString v.toInt

end ShownValue

/-- A parameter and its value. -/
structure ShownParameter where
  name : String
  value : ShownValue

/-- What ran, or was assigned. -/
inductive Activity where
  /-- `time` is how long the option has been active, `stateTime` how long the state. -/
  | option (name : String) (time : Nat) (state : String) (stateTime : Nat)
    (parameters : List ShownParameter)
  | behavior (name : String) (parameters : List ShownParameter)
  | output (name : String) (value : ShownValue)

/-- An activity and the number of activations above it. -/
structure ActiveBehavior where
  depth : Nat
  activity : Activity

namespace ActiveBehavior

/-- Parameters as text, each one after a blank. -/
def parametersText (ps : List ShownParameter) : String :=
  String.join (ps.map fun p => s!" {p.name}={p.value.text}")

/-- The text of an activity. -/
def activityText : Activity → String
  | .option name time state stateTime parameters =>
    s!"option {name} ({time} ms) state {state} ({stateTime} ms)" ++ parametersText parameters
  | .behavior name parameters => s!"basic behavior {name}" ++ parametersText parameters
  | .output name value => s!"{name} = {value.text}"

/-- The line of an entry. -/
def line (b : ActiveBehavior) : String :=
  String.ofList (List.replicate (2 * b.depth) ' ') ++ activityText b.activity

end ActiveBehavior

/-! ### Values of parameters -/

/-- A parameter and the shown form of its value. -/
def ShownParameter.of? {σ : Type} (symbols : Symbols σ) (name : String) {d : Domain}
    (t : d.Typing) (x : d.Value) : Option ShownParameter :=
  (ShownValue.of? symbols t x).map (⟨name, ·⟩)

/-- The parameters of a symbol or behavior with the values in their slots. -/
def Parameters.inSlots? {σ : Type} (symbols : Symbols σ) (w : World σ) (p : Parameters String) :
    Option (List ShownParameter) :=
  (Domain.all.flatMap fun d => (p.get d).entries.map fun (name, x) =>
    ShownParameter.of? symbols name x.typing (w.read d x.slot)).mapM id

/-- The parameters of an option with the values that were bound to them. -/
def Parameters.bound? {σ : Type} (symbols : Symbols σ) (values : PerDomain fun d => List d.Value)
    (p : Parameters Unit) : Option (List ShownParameter) :=
  (Domain.all.flatMap fun d => ((p.get d).entries.zip (values.get d)).map fun ((name, x), v) =>
    ShownParameter.of? symbols name x.typing v).mapM id

/-! ### The walk -/

/-- What a walk has met so far. -/
structure Walk (σ : Type) where
  visited : List Nat
  entries : List ActiveBehavior
  world : World σ

namespace Walk

variable {σ : Type}

/-- Adds an entry. -/
def add (b : ActiveBehavior) : StateT (Walk σ) Option Unit :=
  modify fun w => { w with entries := w.entries ++ [b] }

/-- The entries of an action; `walkOption` walks the option that it activates. -/
def action (p : Program σ) (walkOption : Nat → StateT (Walk σ) Option Unit) (depth : Nat) :
    Action → StateT (Walk σ) Option Unit
  | .activate target _ => walkOption target
  | .behave target _ => do
    let behavior ← p.environment.behaviors.at? target
    let name ← p.environment.behaviors.name? target
    let parameters ← behavior.parameters.inSlots? p.environment.symbols (← get).world
    add ⟨depth, .behavior name parameters⟩
  | .assign (d := d) k expression => do
    let symbol ← (p.environment.symbols.outputs.get d).at? k
    let name ← (p.environment.symbols.outputs.get d).name? k
    let x ← modifyGet fun w =>
      ((symbol.binding.read w.world).1, { w with world := (symbol.binding.read w.world).2 })
    let value ← ShownValue.of? p.environment.symbols expression.typing x
    add ⟨depth, .output name value⟩

/-- The entries of an option that ran in a cycle, unless they are there already. -/
def option (p : Program σ) (options : List Activation) (cycle : Nat) :
    (fuel depth : Nat) → Nat → StateT (Walk σ) Option Unit
  | 0, _, _ => failure
  | fuel + 1, depth, i => do
    let node ← p.graph.options.at? i
    let name ← p.graph.options.name? i
    let a ← options[i]?
    if i ∈ (← get).visited ∨ ¬ a.ranIn cycle then return
    modify fun w => { w with visited := i :: w.visited }
    let state ← node.states.at? a.executed
    let stateName ← node.states.name? a.executed
    let stateTime ← a.stateTime? a.executed
    let parameters ← node.parameters.bound? p.environment.symbols a.parameters
    add ⟨depth, .option name a.elapsed stateName stateTime parameters⟩
    state.actions.forM <|
      action p (fun target => option p options cycle fuel (depth + 1) target) (depth + 1)

end Walk

/-- What ran in a cycle, depth first from a root option, and the host after its outputs were
read. -/
def activeBehaviors? {σ : Type} (p : Program σ) (options : List Activation) (cycle root : Nat)
    (w : World σ) : Option (List ActiveBehavior × World σ) := do
  let (_, walk) ←
    (Walk.option p options cycle (p.graph.options.size + 1) 0 root).run ⟨[], [], w⟩
  return (walk.entries, walk.world)

end BehaviorEngine
