import BehaviorEngine.Engine.Snapshot
import BehaviorEngine.Proofs.Renaming.Cycles

/-!
Snapshots do not depend on the order of registration: a snapshot shows names and values, and no
positions.
-/

namespace BehaviorEngine

variable {σ : Type} {ρ : Renaming}

namespace Symbols.Renames

variable {s s' : Symbols σ}

/-- A value is shown alike. -/
theorem shownValue_eq (h : s.Renames ρ s') {d : Domain} (t : d.Typing) (x : d.Value) :
    ShownValue.of? s' (ρ.typing d t) x = ShownValue.of? s t x := by
  cases d with
  | decimal | boolean => rfl
  | enumerated => exact congrArg (Option.map _) (h.enumeration?_eq t)

theorem shownParameter_eq (h : s.Renames ρ s') (name : String) {d : Domain} (t : d.Typing)
    (x : d.Value) :
    ShownParameter.of? s' name (ρ.typing d t) x = ShownParameter.of? s name t x :=
  congrArg (Option.map _) (h.shownValue_eq t x)

theorem inSlots?_eq (h : s.Renames ρ s') (w : World σ) (ps : Parameters String) :
    (ps.rename ρ).inSlots? s' w = ps.inSlots? s w := by
  refine congrArg (List.mapM id) (List.flatMap_congr fun d _ => ?_)
  rw [Parameters.get_rename, Registry.entries_map, List.map_map]
  exact List.map_congr_left fun e _ => h.shownParameter_eq e.1 _ _

theorem bound?_eq (h : s.Renames ρ s') (values : PerDomain fun d => List d.Value)
    (ps : Parameters Unit) : (ps.rename ρ).bound? s' values = ps.bound? s values := by
  refine congrArg (List.mapM id) (List.flatMap_congr fun d _ => ?_)
  rw [Parameters.get_rename, Registry.entries_map, List.zip_map_left, List.map_map]
  exact List.map_congr_left fun e _ => h.shownParameter_eq e.1.1 _ _

end Symbols.Renames

namespace Walk

variable {p p' : Program σ}

/-- An action shows the same in both environments. -/
theorem action_rename (hp : p.Renames ρ p') (walkOption : Nat → StateT (Walk σ) Option Unit)
    (depth : Nat) (a : Action) :
    action p' walkOption depth (a.rename ρ) = action p walkOption depth a := by
  cases a with
  | activate => rfl
  | behave target bindings =>
    rw [Action.rename, action, action, hp.environment.behaviors.at? target,
      hp.environment.behaviors.name? target, Partial.lift_map_bind]
    simp only [BasicBehavior.rename, hp.environment.symbols.inSlots?_eq]
  | @assign d k expression =>
    rw [Action.rename, action, action, (hp.environment.symbols.outputs d).at? k,
      (hp.environment.symbols.outputs d).name? k, Expr.typing_rename, Partial.lift_map_bind]
    simp only [OutputSymbol.rename, hp.environment.symbols.shownValue_eq]

/-- **An option shows the same in both environments.** -/
theorem option_rename (hp : p.Renames ρ p') (options : List Activation)
    (cycle fuel depth i : Nat) :
    option p' options cycle fuel depth i = option p options cycle fuel depth i := by
  induction fuel generalizing depth i with
  | zero => rfl
  | succ fuel ih =>
    have hactions : ∀ state : Graph.State, ((state.rename ρ).actions.forM
        (action p' (fun i => option p' options cycle fuel (depth + 1) i) (depth + 1)) :
          StateT (Walk σ) Option Unit) = state.actions.forM
        (action p (fun i => option p options cycle fuel (depth + 1) i) (depth + 1)) := by
      intro state
      refine List.forM_map.trans ?_
      rw [funext (ih (depth + 1))]
      exact congrArg (List.forM state.actions ·) (funext (action_rename hp _ _))
    rw [option, option, hp.graph, Graph.options_at?_rename, Partial.lift_map_bind]
    simp only [Graph.options_name?_rename, Graph.Node.rename, Registry.at?_map, Registry.name?_map,
      Partial.lift_map_bind, hp.environment.symbols.bound?_eq, hactions]

end Walk

/-- **A snapshot shows the same in both environments**, and leaves the same host. -/
theorem activeBehaviors?_rename {p p' : Program σ} (hp : p.Renames ρ p') (options : List Activation)
    (cycle root : Nat) (w : World σ) :
    activeBehaviors? p' options cycle root w = activeBehaviors? p options cycle root w := by
  rw [activeBehaviors?, activeBehaviors?, hp.graph, Walk.option_rename hp]
  rw [Graph.rename, Registry.size_map]

end BehaviorEngine
