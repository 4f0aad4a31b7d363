import BehaviorEngine.Expr.Basic
import BehaviorEngine.Parameters

/-!
Option graphs. An option is a state machine; a state has actions, which are carried out in every
cycle that the state runs, and a decision tree, which selects the state of the next cycle. Options
refer to one another by position, in cycles too, so a graph is a registry of options and not a
tree.
-/

namespace BehaviorEngine

/-! ### Decision trees -/

mutual

/-- A decision tree over the states of an option, which are given by their positions. -/
inductive Statement : Type
  | goto (state : Nat) : Statement
  | branch (condition : Expr .boolean) (yes : Statement) (otherwise : Alternative) : Statement

/-- What is tried when a condition fails: further conditions in order, and at the end a
statement. -/
inductive Alternative : Type
  | elseIf (condition : Expr .boolean) (yes : Statement) (otherwise : Alternative) : Alternative
  | last (statement : Statement) : Alternative

end

/-- The alternative that a statement makes: a branch continues the conditions of the tree around
it. -/
def Statement.toAlternative : Statement → Alternative
  | .goto state => .last (.goto state)
  | .branch condition yes otherwise => .elseIf condition yes otherwise

mutual

/-- Every state that a tree can select, in reading order. -/
def Statement.targets : Statement → List Nat
  | .goto state => [state]
  | .branch _ yes otherwise => yes.targets ++ otherwise.targets

/-- Every state that an alternative can select, in reading order. -/
def Alternative.targets : Alternative → List Nat
  | .elseIf _ yes otherwise => yes.targets ++ otherwise.targets
  | .last statement => statement.targets

end

/-! ### States and options -/

/-- What a state does in every cycle in which it runs. -/
inductive Action where
  /-- Runs another option in the same cycle. -/
  | activate (option : Nat) (arguments : List Binding)
  | behave (behavior : Nat) (arguments : List Binding)
  | assign {d : Domain} (symbol : Nat) (value : Expr d)

/-- The option that an action activates. -/
def Action.option? : Action → Option Nat
  | .activate option _ => some option
  | _ => none

namespace Graph

/-- A state of an option. -/
structure State where
  /-- Whether the state marks the goal of its option as reached. -/
  isTarget : Bool
  actions : List Action
  decision : Statement

/-- The options that a state activates, in the order of its actions. -/
def State.activated (s : State) : List Nat := s.actions.filterMap Action.option?

/-- An option: a state machine with formal parameters. -/
structure Node where
  parameters : Parameters Unit
  states : Registry State
  initial : Nat

end Graph

/-- Options, and the agents that name some of them as entry points. -/
structure Graph where
  options : Registry Graph.Node
  agents : Registry Nat

/-- The option to start with: the one of the first agent, or the first option. -/
def Graph.defaultRoot (g : Graph) : Nat := (g.agents.at? 0).getD 0

end BehaviorEngine
