import BehaviorEngine.Proofs.Cycle.Trace
import BehaviorEngine.Proofs.Graph.Complete

/-!
Places in a graph. A path leads from the graph to an option, from there to one of its states, and
on to an action or to the decision tree. Each part of a cycle works at the place that its path leads
to, so what a cycle evaluates is found in the graph.
-/

namespace BehaviorEngine

variable {σ : Type}

/-! ### Actions -/

/-- The state at a position of the option at a position. -/
def Graph.state? (g : Graph) (i k : Nat) : Option Graph.State :=
  (g.options.at? i).bind fun node => node.states.at? k

/-- The action that a path leads to: one of a state of an option. -/
def Graph.action? (g : Graph) : Path → Option Action
  | [n, k, i] => (g.state? i k).bind fun state => state.actions[n]?
  | _ => none

section Graphs

variable {p : Program σ} {i k n : Nat} {state : Graph.State} {site : Path} {a : Action}

theorem Graph.state?_eq_some {g : Graph} : g.state? i k = some state ↔
    ∃ node, g.options.at? i = some node ∧ node.states.at? k = some state :=
  Option.bind_eq_some_iff

theorem Graph.action?_eq_some {g : Graph} : g.action? site = some a ↔
    ∃ n k i state, site = [n, k, i] ∧ g.state? i k = some state ∧ state.actions[n]? = some a := by
  constructor
  · intro h
    unfold Graph.action? at h
    split at h
    · obtain ⟨state, hs, ha⟩ := Option.bind_eq_some_iff.1 h
      exact ⟨_, _, _, state, rfl, hs, ha⟩
    · cases h
  · rintro ⟨n, k, i, state, rfl, hs, ha⟩
    exact Option.bind_eq_some_iff.2 ⟨state, hs, ha⟩

theorem Program.Fits.of_state? (h : p.Fits) (hs : p.graph.state? i k = some state) :
    ∃ node, p.graph.options.at? i = some node ∧
      state.Fits p node.parameters.sizes node.states.size := by
  obtain ⟨node, hn, hstate⟩ := Graph.state?_eq_some.1 hs
  exact ⟨node, hn, (h.options node (Registry.at?_mem hn)).states state (Registry.at?_mem hstate)⟩

theorem Program.Fits.of_action? (h : p.Fits) (ha : p.graph.action? site = some a) :
    ∃ own, a.Fits p own := by
  obtain ⟨n, k, i, state, rfl, hs, ha⟩ := Graph.action?_eq_some.1 ha
  obtain ⟨node, -, hfits⟩ := h.of_state? hs
  exact ⟨_, hfits.actions a (List.mem_of_getElem? ha)⟩

theorem Program.Complete.of_action? (h : p.Complete) (ha : p.graph.action? site = some a) :
    a.Complete p := by
  obtain ⟨n, k, i, state, rfl, hs, ha⟩ := Graph.action?_eq_some.1 ha
  obtain ⟨node, hn, hstate⟩ := Graph.state?_eq_some.1 hs
  exact h node (Registry.at?_mem hn) state (Registry.at?_mem hstate) a (List.mem_of_getElem? ha)

end Graphs

/-! ### Tasks -/

/-- **A part of a cycle stands where its path leads to.** -/
def Task.Placed (g : Graph) : Task → Prop
  | .option _ => True
  | .action i state site a => ∃ n k, site = [n, k, i] ∧ g.state? i k = some state ∧
    state.actions[n]? = some a
  | .actions i state path n as => ∃ k, path = [k, i] ∧ g.state? i k = some state ∧
    state.actions.drop n = as

namespace Task.Placed

variable {g : Graph} {i k n : Nat} {state : Graph.State} {path site : Path} {a : Action}
  {as : List Action}

/-- The actions of a state stand in their option. -/
theorem enter {node : Graph.Node} (hn : g.options.at? i = some node)
    (hs : node.states.at? k = some state) :
    (Task.actions i state [k, i] 0 state.actions).Placed g :=
  ⟨k, rfl, Graph.state?_eq_some.2 ⟨node, hn, hs⟩, rfl⟩

theorem head (h : (Task.actions i state path n (a :: as)).Placed g) :
    (Task.action i state (n :: path) a).Placed g := by
  obtain ⟨k, rfl, hs, hdrop⟩ := h
  refine ⟨n, k, rfl, hs, ?_⟩
  rw [← List.head?_drop, hdrop]
  rfl

theorem tail (h : (Task.actions i state path n (a :: as)).Placed g) :
    (Task.actions i state path (n + 1) as).Placed g := by
  obtain ⟨k, rfl, hs, hdrop⟩ := h
  refine ⟨k, rfl, hs, ?_⟩
  rw [← List.tail_drop, hdrop]
  rfl

/-- An action is found at its path. -/
theorem action? (h : (Task.action i state site a).Placed g) : g.action? site = some a := by
  obtain ⟨n, k, rfl, hs, ha⟩ := h
  exact Graph.action?_eq_some.2 ⟨n, k, i, state, rfl, hs, ha⟩

end Task.Placed

end BehaviorEngine
