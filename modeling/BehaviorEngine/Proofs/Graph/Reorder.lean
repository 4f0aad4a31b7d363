import BehaviorEngine.Proofs.Cycle.Reach

/-!
Graphs that differ in the order of actions. Such graphs fit the same environments, and from the same
states of the options the same options can be reached in them, through states that name the same
basic behaviors.
-/

namespace BehaviorEngine

/-! ### Graphs with the same actions -/

namespace Graph

/-- Two states have the same actions, in any order. -/
structure State.Reorders (s s' : State) : Prop where
  isTarget : s'.isTarget = s.isTarget
  actions : s.actions.Perm s'.actions
  decision : s'.decision = s.decision

/-- Two options have the same states up to the order of their actions. -/
structure Node.Reorders (n n' : Node) : Prop where
  parameters : n'.parameters = n.parameters
  names : n'.states.names = n.states.names
  states : List.Forall₂ State.Reorders n.states.values n'.states.values
  initial : n'.initial = n.initial

theorem Node.Reorders.symm {n n' : Node} (h : n.Reorders n') : n'.Reorders n where
  parameters := h.parameters.symm
  names := h.names.symm
  states := h.states.flip.imp fun _ _ h => ⟨h.isTarget.symm, h.actions.symm, h.decision.symm⟩
  initial := h.initial.symm

theorem Node.Reorders.size_eq {n n' : Node} (h : n.Reorders n') :
    n'.states.size = n.states.size := by
  rw [← Registry.names_length, h.names, Registry.names_length]

theorem Node.Reorders.fits {n n' : Node} {a : Activation} (h : n.Reorders n') (ha : a.Fits n) :
    a.Fits n' := by
  have hsize := h.size_eq
  refine ⟨?_, ?_, ?_, ?_⟩
  · rw [hsize]
    exact ha.active
  · rw [hsize]
    exact ha.executed
  · rw [hsize]
    exact ha.clocks
  · rw [h.parameters]
    exact ha.parameters

/-- **Two graphs are the same up to the order of the actions of their states.** -/
structure Reorders (g g' : Graph) : Prop where
  names : g'.options.names = g.options.names
  options : List.Forall₂ Node.Reorders g.options.values g'.options.values
  agents : g'.agents = g.agents

end Graph

theorem getElem?_of_forall₂ {α β : Type} {R : α → β → Prop} {xs : List α} {ys : List β}
    (h : List.Forall₂ R xs ys) {i : Nat} {x : α} (hx : xs[i]? = some x) :
    ∃ y, ys[i]? = some y ∧ R x y := by
  induction h generalizing i with
  | nil => cases hx
  | cons h _ ih =>
    cases i with
    | zero =>
      cases hx
      exact ⟨_, rfl, h⟩
    | succ i => exact ih hx

namespace Graph.Reorders

variable {g g' : Graph} {options : List Activation} {cycle : Nat}

theorem symm (h : g.Reorders g') : g'.Reorders g where
  names := h.names.symm
  options := h.options.flip.imp fun _ _ h => h.symm
  agents := h.agents.symm

theorem size_eq (h : g.Reorders g') : g'.options.size = g.options.size := by
  rw [← Registry.names_length, h.names, Registry.names_length]

theorem node {i : Nat} {n : Node} (h : g.Reorders g') (hn : g.options.at? i = some n) :
    ∃ n', g'.options.at? i = some n' ∧ n.Reorders n' := getElem?_of_forall₂ h.options hn

/-- An option is in the same state, up to the order of its actions. -/
theorem stateIn? {i : Nat} {s : State} (h : g.Reorders g')
    (hs : g.stateIn? options cycle i = some s) :
    ∃ s', g'.stateIn? options cycle i = some s' ∧ s.Reorders s' := by
  obtain ⟨n, hn, hs⟩ := Option.bind_eq_some_iff.1 hs
  obtain ⟨a, ha, hs⟩ := Option.bind_eq_some_iff.1 hs
  obtain ⟨n', hn', hr⟩ := h.node hn
  obtain ⟨s', hs', hrs⟩ := getElem?_of_forall₂ hr.states hs
  refine ⟨s', ?_, hrs⟩
  rw [Graph.stateIn?, hn', ha]
  change n'.states.at? (a.stateIn cycle n'.initial) = _
  rw [hr.initial]
  exact hs'

theorem activates {i j : Nat} (h : g.Reorders g') (ha : g.Activates options cycle i j) :
    g'.Activates options cycle i j := by
  obtain ⟨s, hs, hj⟩ := ha
  obtain ⟨s', hs', hr⟩ := h.stateIn? hs
  exact ⟨s', hs', (hr.actions.filterMap _).mem_iff.1 hj⟩

/-- The same options can be reached. -/
theorem reaches_iff {i j : Nat} (h : g.Reorders g') :
    g'.Reaches options cycle i j ↔ g.Reaches options cycle i j :=
  ⟨Relation.ReflTransGen.mono (fun _ _ => h.symm.activates) i j,
    Relation.ReflTransGen.mono (fun _ _ => h.activates) i j⟩

/-- The same basic behaviors are named. -/
theorem names_iff {i b : Nat} (h : g.Reorders g') :
    (∃ s, g'.stateIn? options cycle i = some s ∧ b ∈ s.behaviors) ↔
      ∃ s, g.stateIn? options cycle i = some s ∧ b ∈ s.behaviors := by
  have hmono : ∀ {g g' : Graph}, g.Reorders g' →
      (∃ s, g.stateIn? options cycle i = some s ∧ b ∈ s.behaviors) →
      ∃ s, g'.stateIn? options cycle i = some s ∧ b ∈ s.behaviors := by
    rintro g g' h ⟨s, hs, hb⟩
    obtain ⟨s', hs', hr⟩ := h.stateIn? hs
    exact ⟨s', hs', (hr.actions.filterMap _).mem_iff.1 hb⟩
  exact ⟨hmono h.symm, hmono h⟩

/-- Graphs that differ in the order of actions run the same, in possibly another order. -/
theorem perm {root : Nat} {events events' : List Event} (h : g.Reorders g')
    (hr : RunsReachable g options cycle root events)
    (hr' : RunsReachable g' options cycle root events') :
    (entered events').Perm (entered events) ∧ (behaved events').Perm (behaved events) := by
  refine ⟨(List.perm_ext_iff_of_nodup hr'.entersOnce hr.entersOnce).2 fun i => ?_,
    (List.perm_ext_iff_of_nodup hr'.behavesOnce hr.behavesOnce).2 fun b => ?_⟩
  · rw [hr'.enters, hr.enters, h.reaches_iff]
  · rw [hr'.behaves, hr.behaves]
    simp only [exists_and_left, h.reaches_iff, h.names_iff]

/-! ### Fitting -/

variable {σ : Type} {environment : Environment σ}

theorem action_fits {own : Domain → Nat} {a : Action} (h : g.Reorders g')
    (ha : a.Fits ⟨environment, g⟩ own) : a.Fits ⟨environment, g'⟩ own := by
  cases a with
  | activate =>
    obtain ⟨n, hn, hb⟩ := ha
    obtain ⟨n', hn', hr⟩ := h.node hn
    exact ⟨n', hn', by rwa [hr.parameters]⟩
  | behave | assign => exact ha

/-- A graph fits whatever the order of its actions. -/
theorem fits (h : g.Reorders g') (hp : Program.Fits ⟨environment, g⟩) :
    Program.Fits ⟨environment, g'⟩ := by
  refine ⟨by rw [h.size_eq]; exact hp.nonempty, fun n' hn' => ?_, ?_⟩
  · obtain ⟨n, hn, hr⟩ := exists_of_forall₂ h.options hn'
    have hnfits := hp.options n hn
    have hsize := hr.size_eq
    refine ⟨by rw [hr.parameters]; exact hnfits.parameters,
      by rw [hr.initial, hsize]; exact hnfits.initial, fun s' hs' => ?_⟩
    obtain ⟨s, hs, hrs⟩ := exists_of_forall₂ hr.states hs'
    have hsfits := hnfits.states s hs
    rw [hr.parameters, hsize]
    refine ⟨fun a ha => h.action_fits (hsfits.actions a (hrs.actions.mem_iff.2 ha)), ?_⟩
    rw [hrs.decision]
    exact hsfits.decision
  · rw [h.agents, h.size_eq]
    exact hp.agents

end Graph.Reorders

end BehaviorEngine
