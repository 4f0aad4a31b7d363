import BehaviorEngine.Expr.Evaluation

/-!
What the engine keeps about the options of a graph from cycle to cycle: which state is active, for
how long, and with which parameters. An option that did not run in the cycle before is entered
anew, in its initial state.
-/

namespace BehaviorEngine

/-- One run of the root option and all that it activates. -/
structure Cycle where
  number : Nat
  /-- The reading of the clock, in milliseconds. -/
  now : Nat
  deriving DecidableEq, Repr

/-- Since when a state has been active, and for how long at its last run. -/
structure StateClock where
  since : Nat
  elapsed : Nat
  deriving DecidableEq, Repr

namespace StateClock

/-- The clock of a state that becomes active. -/
def restart (now : Nat) : StateClock := ⟨now, 0⟩

/-- The clock at a run of its state. Time that runs backward counts as none. -/
def advance (now : Nat) (c : StateClock) : StateClock := { c with elapsed := now - c.since }

end StateClock

/-- The state of an option. -/
structure Activation where
  /-- The state that will run next. -/
  active : Nat
  /-- The state that ran last. -/
  executed : Nat
  since : Nat
  /-- How long the option had been active at its last run. -/
  elapsed : Nat
  /-- The cycle of the last run, unless it is forgotten. -/
  lastCycle : Option Nat
  clocks : List StateClock
  parameters : PerDomain fun d => List d.Value

namespace Activation

/-- The state of an option that has never run. -/
def ofNode (n : Graph.Node) : Activation where
  active := n.initial
  executed := n.initial
  since := 0
  elapsed := 0
  lastCycle := none
  clocks := n.states.values.map fun _ => ⟨0, 0⟩
  parameters := PerDomain.ofFn fun d => (n.parameters.get d).values.map fun _ => d.initial

/-- Whether the option ran in a cycle. -/
def ranIn (a : Activation) (cycle : Nat) : Bool := a.lastCycle = some cycle

/-- Whether the option ran in a cycle or in the one before. -/
def ranLately (a : Activation) (cycle : Nat) : Bool :=
  a.lastCycle.any fun last => cycle ≤ last + 1

/-- Whether a run in a cycle continues one of the cycle before. -/
def continues (a : Activation) (cycle : Nat) : Bool :=
  a.lastCycle.any fun last => last + 1 = cycle

/-- Makes a state the active one, as of now. -/
def switch (a : Activation) (state now : Nat) : Activation :=
  { a with active := state, clocks := a.clocks.modify state fun _ => StateClock.restart now }

/-- The option at the start of its run in a cycle. -/
def start (a : Activation) (cycle : Cycle) (initial : Nat) : Activation :=
  let b := if a.continues cycle.number then a
    else { a.switch initial cycle.now with since := cycle.now }
  { b with
    lastCycle := some cycle.number
    elapsed := cycle.now - b.since
    executed := b.active
    clocks := b.clocks.modify b.active (StateClock.advance cycle.now) }

/-- The option at the end of a run that selected a state. -/
def finish (a : Activation) (cycle : Cycle) (next : Nat) : Activation :=
  if next = a.executed then a else a.switch next cycle.now

/-- The option without the memory of when it ran. -/
def forget (a : Activation) : Activation := { a with lastCycle := none }

/-- The option with a parameter bound, if it has one at that position. -/
def bind? (a : Activation) (x : Argument) : Option Activation :=
  if x.index < (a.parameters.get x.domain).length then
    some { a with parameters := a.parameters.modify x.domain fun xs => xs.set x.index x.value }
  else none

/-- How long a state had been active at its last run. -/
def stateTime? (a : Activation) (state : Nat) : Option Nat :=
  a.clocks[state]?.map StateClock.elapsed

end Activation

end BehaviorEngine
