import BehaviorEngine.Expr.Operation
import BehaviorEngine.Expr.Memory
import BehaviorEngine.Host.Environment
import BehaviorEngine.Graph.Basic

/-!
Evaluation of expressions and decision trees. An evaluation reads its surroundings; all it can
change is the state of the host and what call sites remember. It has no value only if a position
in the expression leads nowhere.
-/

namespace BehaviorEngine

/-- What an evaluation reads besides the host. -/
structure Surroundings (σ : Type) where
  symbols : Symbols σ
  /-- The values of the parameters of the option. -/
  parameters : PerDomain fun d => List d.Value
  stateTime : Nat
  optionTime : Nat
  /-- Whether an option activated by the state rests in a target state. -/
  reachedTarget : Option Bool

/-- What an evaluation can change. -/
structure Store (σ : Type) where
  world : World σ
  memory : Memory

/-- An evaluation. -/
abbrev Evaluate (σ : Type) (α : Type) := StateT (Store σ) Option α

namespace Evaluate

variable {σ : Type}

/-- Lets the host act. -/
def host (f : World σ → World σ) : Evaluate σ Unit :=
  modify fun s => { s with world := f s.world }

/-- Lets the host act and answer. -/
def ask {α : Type} (f : World σ → α × World σ) : Evaluate σ α :=
  modifyGet fun s => ((f s.world).1, { s with world := (f s.world).2 })

/-- Writes an argument into the slot of its parameter. -/
def writeSlot (parameters : Parameters String) (a : Argument) : Evaluate σ Unit := do
  let parameter ← (parameters.get a.domain).at? a.index
  host fun w => w.write a.domain parameter.slot a.value

/-- Remembers what a call site has bound, and tells whether that is a change. -/
def remember (site : Path) (arguments : List Argument) : Evaluate σ Bool :=
  modifyGet fun s =>
    (s.memory.isChange site arguments, { s with memory := s.memory.remember site arguments })

/-- Reads an input symbol whose slots have been written. -/
def readInput {d : Domain} (symbol : InputSymbol σ d) (changed : Bool) : Evaluate σ d.Value := do
  if changed then host (symbol.parametersChanged.getD id)
  ask symbol.binding.read

end Evaluate

open Evaluate

variable {σ : Type}

mutual

/-- The value of an expression at a path. -/
def Expr.value (s : Surroundings σ) (path : Path) : {d : Domain} → Expr d → Evaluate σ d.Value
  | _, .literal _ x => pure x
  | d, .parameter _ i => (s.parameters.get d)[i]?
  | d, .input _ i bindings => do
    let symbol ← (s.symbols.inputs.get d).at? i
    let arguments ← Binding.values s path (writeSlot symbol.parameters) 0 bindings
    readInput symbol (← remember path arguments)
  | d, .output _ i => do
    let symbol ← (s.symbols.outputs.get d).at? i
    ask symbol.binding.read
  | _, .choice condition yes no => do
    if ← condition.value s (0 :: path) then yes.value s (1 :: path) else no.value s (2 :: path)
  | _, .arithmetic op left right => do
    let x ← left.value s (0 :: path)
    let y ← right.value s (1 :: path)
    return op.apply x y
  | _, .stateTime => return .ofNat s.stateTime
  | _, .optionTime => return .ofNat s.optionTime
  | _, .connective op operands => Expr.connected s path op 0 operands
  | _, .not operand => return !(← operand.value s (0 :: path))
  | _, .relation op left right => do
    let x ← left.value s (0 :: path)
    let y ← right.value s (1 :: path)
    return op.holds x y
  | _, .sameElement left right => do
    let x ← left.value s (0 :: path)
    let y ← right.value s (1 :: path)
    return x == y
  | _, .reachedTarget => s.reachedTarget
termination_by structural _ e => e

/-- The value of a connective of the operands from the `k`-th on; those behind the first one that
decides it are not evaluated. -/
def Expr.connected (s : Surroundings σ) (path : Path) (op : Connective) (k : Nat) :
    List (Expr .boolean) → Evaluate σ Bool
  | [] => return op.unit
  | operand :: rest => do
    let x ← operand.value s (k :: path)
    if x = op.unit then Expr.connected s path op (k + 1) rest else return x
termination_by structural es => es

/-- The arguments that the bindings from the `k`-th on make at a call site. Each one is handed to
`write` before the next binding is evaluated. -/
def Binding.values (s : Surroundings σ) (path : Path) (write : Argument → Evaluate σ Unit)
    (k : Nat) : List Binding → Evaluate σ (List Argument)
  | [] => return []
  | .mk d i expression :: rest => do
    let argument : Argument := ⟨d, i, ← expression.value s (k :: path)⟩
    write argument
    return argument :: (← Binding.values s path write (k + 1) rest)
termination_by structural bs => bs

end

mutual

/-- The state that a decision tree at a path selects. -/
def Statement.select (s : Surroundings σ) (path : Path) : Statement → Evaluate σ Nat
  | .goto state => return state
  | .branch condition yes otherwise => do
    if ← condition.value s (0 :: path) then yes.select s (1 :: path)
    else otherwise.select s (2 :: path)

/-- The state that an alternative at a path selects. -/
def Alternative.select (s : Surroundings σ) (path : Path) : Alternative → Evaluate σ Nat
  | .elseIf condition yes otherwise => do
    if ← condition.value s (0 :: path) then yes.select s (1 :: path)
    else otherwise.select s (2 :: path)
  | .last statement => statement.select s path

end

end BehaviorEngine
