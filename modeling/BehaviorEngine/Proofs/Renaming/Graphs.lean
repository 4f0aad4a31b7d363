import BehaviorEngine.Graph.Basic
import BehaviorEngine.Proofs.Renaming.Environments

/-!
Graphs for an environment in another order. Only the positions of symbols, basic behaviors and
enumerations are replaced: those of options, states and parameters are given by the source.
-/

namespace BehaviorEngine

variable {d : Domain}

/-! ### Expressions -/

mutual

/-- An expression for the other environment. -/
def Expr.rename (ρ : Renaming) : {d : Domain} → Expr d → Expr d
  | d, .literal t x => .literal (ρ.typing d t) x
  | d, .parameter t i => .parameter (ρ.typing d t) i
  | d, .input t i bindings => .input (ρ.typing d t) (ρ.input d i) (Binding.renameAll ρ bindings)
  | d, .output t k => .output (ρ.typing d t) (ρ.output d k)
  | _, .choice condition yes no => .choice (condition.rename ρ) (yes.rename ρ) (no.rename ρ)
  | _, .arithmetic op left right => .arithmetic op (left.rename ρ) (right.rename ρ)
  | _, .stateTime => .stateTime
  | _, .optionTime => .optionTime
  | _, .connective op operands => .connective op (Expr.renameAll ρ operands)
  | _, .not operand => .not (operand.rename ρ)
  | _, .relation op left right => .relation op (left.rename ρ) (right.rename ρ)
  | _, .sameElement left right => .sameElement (left.rename ρ) (right.rename ρ)
  | _, .reachedTarget => .reachedTarget
termination_by structural _ e => e

/-- The operands of a connective for the other environment. -/
def Expr.renameAll (ρ : Renaming) : List (Expr .boolean) → List (Expr .boolean)
  | [] => []
  | e :: es => e.rename ρ :: Expr.renameAll ρ es
termination_by structural es => es

/-- The bindings of a call site for the other environment. -/
def Binding.renameAll (ρ : Renaming) : List Binding → List Binding
  | [] => []
  | .mk d i e :: bs => .mk d i (e.rename ρ) :: Binding.renameAll ρ bs
termination_by structural bs => bs

end

/-- A binding for the other environment. -/
def Binding.rename (ρ : Renaming) : Binding → Binding
  | .mk d i e => .mk d i (e.rename ρ)

theorem Expr.renameAll_eq (ρ : Renaming) (es : List (Expr .boolean)) :
    Expr.renameAll ρ es = es.map (Expr.rename ρ) := by
  induction es with
  | nil => rfl
  | cons e es ih => rw [Expr.renameAll, ih, List.map_cons]

theorem Binding.renameAll_eq (ρ : Renaming) (bs : List Binding) :
    Binding.renameAll ρ bs = bs.map (Binding.rename ρ) := by
  induction bs with
  | nil => rfl
  | cons b bs ih =>
    cases b
    rw [Binding.renameAll, ih, List.map_cons, Binding.rename]

@[simp] theorem Binding.domain_rename (ρ : Renaming) (b : Binding) :
    (b.rename ρ).domain = b.domain := by cases b; rfl

@[simp] theorem Binding.index_rename (ρ : Renaming) (b : Binding) :
    (b.rename ρ).index = b.index := by cases b; rfl

/-- Bindings are arranged by their domains, which stay. -/
theorem Binding.arrange_rename (ρ : Renaming) (bs : List Binding) :
    Binding.arrange (bs.map (Binding.rename ρ)) = (Binding.arrange bs).map (Binding.rename ρ) := by
  rw [arrange, arrange, List.map_flatMap]
  refine List.flatMap_congr fun d _ => ?_
  rw [List.filter_map]
  simp [Function.comp_def]

/-- What the values of an expression agree with moves like the rest. -/
theorem Expr.typing_rename (ρ : Renaming) : {d : Domain} → (e : Expr d) →
    (e.rename ρ).typing = ρ.typing d e.typing
  | _, .literal _ _ | _, .parameter _ _ => by simp [Expr.rename, Expr.typing]
  | _, .input _ _ _ => by simp [Expr.rename, Expr.typing]
  | _, .output _ _ => by simp [Expr.rename, Expr.typing]
  | _, .choice _ yes _ => by simpa [Expr.rename, Expr.typing] using Expr.typing_rename ρ yes
  | _, .arithmetic _ _ _ | _, .relation _ _ _ | _, .sameElement _ _ => rfl
  | _, .stateTime | _, .optionTime | _, .reachedTarget => rfl
  | _, .connective _ _ => rfl
  | _, .not _ => rfl

/-! ### Graphs -/

mutual

/-- A decision tree for the other environment. -/
def Statement.rename (ρ : Renaming) : Statement → Statement
  | .goto state => .goto state
  | .branch condition yes otherwise =>
    .branch (condition.rename ρ) (yes.rename ρ) (otherwise.rename ρ)

/-- An alternative for the other environment. -/
def Alternative.rename (ρ : Renaming) : Alternative → Alternative
  | .elseIf condition yes otherwise =>
    .elseIf (condition.rename ρ) (yes.rename ρ) (otherwise.rename ρ)
  | .last statement => .last (statement.rename ρ)

end

theorem Statement.toAlternative_rename (ρ : Renaming) (t : Statement) :
    (t.rename ρ).toAlternative = t.toAlternative.rename ρ := by
  cases t with
  | goto => simp [Statement.rename, Statement.toAlternative, Alternative.rename]
  | branch => simp [Statement.rename, Statement.toAlternative, Alternative.rename]

/-- An action for the other environment. -/
def Action.rename (ρ : Renaming) : Action → Action
  | .activate option arguments => .activate option (arguments.map (Binding.rename ρ))
  | .behave behavior arguments => .behave (ρ.behavior behavior) (arguments.map (Binding.rename ρ))
  | .assign (d := d) symbol value => .assign (ρ.output d symbol) (value.rename ρ)

@[simp] theorem Action.option?_rename (ρ : Renaming) (a : Action) :
    (a.rename ρ).option? = a.option? := by cases a <;> rfl

namespace Graph

/-- A state for the other environment. -/
def State.rename (ρ : Renaming) (s : State) : State :=
  { s with actions := s.actions.map (Action.rename ρ), decision := s.decision.rename ρ }

@[simp] theorem State.activated_rename (ρ : Renaming) (s : State) :
    (s.rename ρ).activated = s.activated := by
  rw [activated, activated, State.rename, List.filterMap_map]
  exact congrArg (List.filterMap · s.actions) (funext (Action.option?_rename ρ))

/-- An option for the other environment. -/
def Node.rename (ρ : Renaming) (n : Node) : Node :=
  { n with parameters := n.parameters.rename ρ, states := n.states.map (State.rename ρ) }

/-- **A graph for the other environment**: the same options, states and agents. -/
def rename (ρ : Renaming) (g : Graph) : Graph :=
  { g with options := g.options.map (Node.rename ρ) }

end Graph

end BehaviorEngine
