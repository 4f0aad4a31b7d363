import BehaviorEngine.Proofs.Cycle.Completion
import BehaviorEngine.Proofs.Host.Enumerations

/-!
Snapshots can be taken. The walk of a snapshot looks up what a cycle looks up, and the names of it;
it enters an option only once, so its depth is bounded by the options that it has not visited. What
it shows belongs to enumerations that are registered.
-/

namespace BehaviorEngine

open Partial

/-! ### Shown values -/

section Shown

variable {σ : Type} {symbols : Symbols σ} {d : Domain} {t : d.Typing}

/-- Values that are known have a shown form. -/
theorem ShownValue.exists_of? (h : symbols.Knows d t) (x : d.Value) :
    ∃ v, ShownValue.of? symbols t x = some v := by
  cases d with
  | decimal => exact ⟨.decimal x, rfl⟩
  | boolean => exact ⟨.boolean x, rfl⟩
  | enumerated =>
    obtain ⟨name, elements, hid⟩ := h.exists_enumeration
    exact ⟨.enumerated x (elements.elementName? x), by rw [ShownValue.of?, hid]; rfl⟩

theorem ShownParameter.exists_of? (h : symbols.Knows d t) (name : String) (x : d.Value) :
    ∃ v, ShownParameter.of? symbols name t x = some v := by
  obtain ⟨v, hv⟩ := ShownValue.exists_of? h x
  exact ⟨⟨name, v⟩, by rw [ShownParameter.of?, hv]; rfl⟩

theorem exists_mapM_id {α : Type} {xs : List (Option α)} (h : ∀ x ∈ xs, ∃ a, x = some a) :
    ∃ as, xs.mapM id = some as := by
  induction xs with
  | nil => exact ⟨[], rfl⟩
  | cons x xs ih =>
    obtain ⟨a, rfl⟩ := h x (by simp)
    obtain ⟨as, has⟩ := ih fun y hy => h y (by simp [hy])
    exact ⟨a :: as, by simp [List.mapM_cons, has]⟩

theorem Parameters.exists_inSlots? {p : Parameters String} (h : p.KnownTo symbols) (w : World σ) :
    ∃ shown, p.inSlots? symbols w = some shown := by
  refine exists_mapM_id fun x hx => ?_
  obtain ⟨d, -, hx⟩ := List.mem_flatMap.1 hx
  obtain ⟨⟨name, y⟩, hy, rfl⟩ := List.mem_map.1 hx
  exact ShownParameter.exists_of? (h d y (List.mem_map_of_mem hy)) name _

theorem Parameters.exists_bound? {p : Parameters Unit} (h : p.KnownTo symbols)
    (values : PerDomain fun d => List d.Value) : ∃ shown, p.bound? symbols values = some shown := by
  refine exists_mapM_id fun x hx => ?_
  obtain ⟨d, -, hx⟩ := List.mem_flatMap.1 hx
  obtain ⟨⟨⟨name, y⟩, v⟩, hy, rfl⟩ := List.mem_map.1 hx
  exact ShownParameter.exists_of? (h d y (List.mem_map_of_mem (List.of_mem_zip hy).1)) name v

end Shown

namespace Walk

variable {σ : Type} {p : Program σ} {options : List Activation} {cycle : Nat} {w w' : Walk σ}

/-! ### The steps of a walk -/

section Steps

variable {walkOption : Nat → StateT (Walk σ) Option Unit} {n depth i k : Nat}
  {bindings : List Binding}

/-- A request of a basic behavior gives one entry. -/
theorem behave_eq_some
    (h : Walk.action p walkOption depth (.behave k bindings) w = some ((), w')) :
    ∃ behavior name parameters, p.environment.behaviors.at? k = some behavior ∧
      p.environment.behaviors.name? k = some name ∧
      behavior.parameters.inSlots? p.environment.symbols w.world = some parameters ∧
      w' = { w with entries := w.entries ++ [⟨depth, .behavior name parameters⟩] } := by
  obtain ⟨behavior, w₁, h₁, h⟩ := bind_eq_some.1 h
  obtain ⟨hbehavior, rfl⟩ := lift_eq_some.1 h₁
  obtain ⟨name, w₂, h₂, h⟩ := bind_eq_some.1 h
  obtain ⟨hname, rfl⟩ := lift_eq_some.1 h₂
  obtain ⟨_, w₃, h₃, h⟩ := bind_eq_some.1 h
  obtain ⟨rfl, rfl⟩ := get_eq_some.1 h₃
  obtain ⟨parameters, w₄, h₄, h⟩ := bind_eq_some.1 h
  obtain ⟨hparameters, rfl⟩ := lift_eq_some.1 h₄
  exact ⟨behavior, name, parameters, hbehavior, hname, hparameters, (modify_eq_some.1 h).symm⟩

/-- An assignment gives one entry, for which the output is read. -/
theorem assign_eq_some {d : Domain} {expression : Expr d}
    (h : Walk.action p walkOption depth (.assign k expression) w = some ((), w')) :
    ∃ symbol name value, (p.environment.symbols.outputs.get d).at? k = some symbol ∧
      (p.environment.symbols.outputs.get d).name? k = some name ∧
      ShownValue.of? p.environment.symbols expression.typing (symbol.binding.read w.world).1 =
        some value ∧
      w' = { w with
        entries := w.entries ++ [⟨depth, .output name value⟩]
        world := (symbol.binding.read w.world).2 } := by
  obtain ⟨symbol, w₁, h₁, h⟩ := bind_eq_some.1 h
  obtain ⟨hsymbol, rfl⟩ := lift_eq_some.1 h₁
  obtain ⟨name, w₂, h₂, h⟩ := bind_eq_some.1 h
  obtain ⟨hname, rfl⟩ := lift_eq_some.1 h₂
  obtain ⟨x, w₃, h₃, h⟩ := bind_eq_some.1 h
  obtain ⟨rfl, rfl⟩ := Prod.mk.inj (modifyGet_eq_some.1 h₃)
  obtain ⟨value, w₄, h₄, h⟩ := bind_eq_some.1 h
  obtain ⟨hvalue, rfl⟩ := lift_eq_some.1 h₄
  exact ⟨symbol, name, value, hsymbol, hname, hvalue, (modify_eq_some.1 h).symm⟩

/-- The walk of an option that ran adds an entry and walks the actions of the state that ran. -/
def Enters (p : Program σ) (options : List Activation) (cycle n depth i : Nat) (a : Activation)
    (w w' : Walk σ) : Prop :=
  ∃ n' node name state stateName stateTime parameters, n = n' + 1 ∧
    p.graph.options.at? i = some node ∧
    p.graph.options.name? i = some name ∧ node.states.at? a.executed = some state ∧
    node.states.name? a.executed = some stateName ∧ a.stateTime? a.executed = some stateTime ∧
    node.parameters.bound? p.environment.symbols a.parameters = some parameters ∧
    (state.actions.forM (Walk.action p (Walk.option p options cycle n' (depth + 1)) (depth + 1)) :
      StateT (Walk σ) Option Unit)
      ⟨i :: w.visited, w.entries ++ [⟨depth, .option name a.elapsed stateName stateTime
        parameters⟩], w.world⟩ = some ((), w')

/-- What the walk of an option does: nothing if it was visited or has not run. -/
theorem option_cases (h : Walk.option p options cycle n depth i w = some ((), w')) :
    ∃ a, options[i]? = some a ∧ ((i ∈ w.visited ∨ a.ranIn cycle = false) ∧ w' = w ∨
      i ∉ w.visited ∧ a.ranIn cycle = true ∧ Enters p options cycle n depth i a w w') := by
  cases n with
  | zero => cases h
  | succ n =>
    obtain ⟨node, w₁, h₁, h⟩ := bind_eq_some.1 h
    obtain ⟨hnode, rfl⟩ := lift_eq_some.1 h₁
    obtain ⟨name, w₂, h₂, h⟩ := bind_eq_some.1 h
    obtain ⟨hname, rfl⟩ := lift_eq_some.1 h₂
    obtain ⟨a, w₃, h₃, h⟩ := bind_eq_some.1 h
    obtain ⟨ha, rfl⟩ := lift_eq_some.1 h₃
    obtain ⟨t, w₄, h₄, h⟩ := bind_eq_some.1 h
    obtain ⟨rfl, rfl⟩ := get_eq_some.1 h₄
    refine ⟨a, ha, ?_⟩
    split at h
    · next hskip =>
      obtain ⟨-, rfl⟩ := pure_eq_some.1 h
      exact .inl ⟨by simpa using hskip, rfl⟩
    · next hvisit =>
      obtain ⟨hi, hr⟩ : i ∉ w.visited ∧ a.ranIn cycle = true := by simpa using hvisit
      obtain ⟨_, w₅, h₅, h⟩ := bind_eq_some.1 h
      obtain rfl := modify_eq_some.1 h₅
      obtain ⟨state, w₆, h₆, h⟩ := bind_eq_some.1 h
      obtain ⟨hstate, rfl⟩ := lift_eq_some.1 h₆
      obtain ⟨stateName, w₇, h₇, h⟩ := bind_eq_some.1 h
      obtain ⟨hstateName, rfl⟩ := lift_eq_some.1 h₇
      obtain ⟨stateTime, w₈, h₈, h⟩ := bind_eq_some.1 h
      obtain ⟨hstateTime, rfl⟩ := lift_eq_some.1 h₈
      obtain ⟨parameters, w₉, h₉, h⟩ := bind_eq_some.1 h
      obtain ⟨hparameters, rfl⟩ := lift_eq_some.1 h₉
      obtain ⟨_, w₁₀, h₁₀, h⟩ := bind_eq_some.1 h
      obtain rfl := modify_eq_some.1 h₁₀
      exact .inr ⟨hi, hr, n, node, name, state, stateName, stateTime, parameters, rfl, hnode,
        hname, hstate, hstateName, hstateTime, hparameters, h⟩

end Steps

/-! ### Walks succeed -/

/-- A walk of an option keeps what was visited. -/
def Keeps (walkOption : Nat → StateT (Walk σ) Option Unit) : Prop :=
  ∀ i w w', walkOption i w = some ((), w') → w.visited ⊆ w'.visited

theorem visited_action {walkOption : Nat → StateT (Walk σ) Option Unit} (hwalk : Keeps walkOption)
    {depth : Nat} {a : Action} (h : Walk.action p walkOption depth a w = some ((), w')) :
    w.visited ⊆ w'.visited := by
  cases a with
  | activate target => exact hwalk target w w' h
  | behave target =>
    obtain ⟨_, _, _, -, -, -, rfl⟩ := behave_eq_some h
    exact List.Subset.refl _
  | assign k expression =>
    obtain ⟨_, _, _, -, -, -, rfl⟩ := assign_eq_some h
    exact List.Subset.refl _

theorem visited_actions {walkOption : Nat → StateT (Walk σ) Option Unit} (hwalk : Keeps walkOption)
    {depth : Nat} {as : List Action}
    (h : (as.forM (Walk.action p walkOption depth) : StateT (Walk σ) Option Unit) w =
      some ((), w')) : w.visited ⊆ w'.visited := by
  induction as generalizing w with
  | nil =>
    obtain ⟨-, rfl⟩ := pure_eq_some.1 h
    exact List.Subset.refl _
  | cons a as ih =>
    obtain ⟨_, w₁, h₁, h⟩ := bind_eq_some.1 h
    exact List.Subset.trans (visited_action hwalk h₁) (ih h)

theorem keeps_option (n depth : Nat) : Keeps (Walk.option p options cycle n depth) := by
  induction n generalizing depth with
  | zero =>
    intro i w w' h
    cases h
  | succ n ih =>
    intro i w w' h
    obtain ⟨a, -, ⟨-, rfl⟩ | ⟨-, -, henters⟩⟩ := option_cases h
    · exact List.Subset.refl _
    · obtain ⟨n', _, _, _, _, _, _, hn, -, -, -, -, -, -, h⟩ := henters
      obtain rfl := Nat.succ.inj hn
      exact List.Subset.trans (List.subset_cons_self i _) (visited_actions (ih (depth + 1)) h)

/-- The options that a walk has not visited. -/
def unvisited (p : Program σ) (w : Walk σ) : Finset Nat :=
  (Finset.range p.graph.options.size).filter (· ∉ w.visited)

theorem unvisited_subset (h : w.visited ⊆ w'.visited) : w'.unvisited p ⊆ w.unvisited p := by
  intro j hj
  obtain ⟨hr, hv⟩ := Finset.mem_filter.1 hj
  exact Finset.mem_filter.2 ⟨hr, fun hmem => hv (h hmem)⟩

theorem unvisited_ssubset {i : Nat} (hi : i < p.graph.options.size) (h : i ∉ w.visited)
    {entries : List ActiveBehavior} {world : World σ} :
    (⟨i :: w.visited, entries, world⟩ : Walk σ).unvisited p ⊂ w.unvisited p := by
  refine Finset.ssubset_iff_subset_ne.2
    ⟨unvisited_subset (List.subset_cons_self i w.visited), fun e => ?_⟩
  have hmem : i ∈ w.unvisited p := Finset.mem_filter.2 ⟨Finset.mem_range.2 hi, h⟩
  rw [← e] at hmem
  exact (Finset.mem_filter.1 hmem).2 List.mem_cons_self

/-- A walk succeeds from every option where fewer than `n` options have not been visited. -/
def SucceedsWithin (p : Program σ) (n : Nat) (walkOption : Nat → StateT (Walk σ) Option Unit) :
    Prop :=
  ∀ w i, i < p.graph.options.size → (w.unvisited p).card < n → Succeeds (walkOption i) w

section Actions

variable {n : Nat} {walkOption : Nat → StateT (Walk σ) Option Unit}

theorem action_succeeds (hwalk : SucceedsWithin p n walkOption) (hcard : (w.unvisited p).card < n)
    (depth : Nat) {own : Domain → Nat} {a : Action} (h : a.Fits p own) :
    Succeeds (Walk.action p walkOption depth a) w := by
  cases a with
  | activate target =>
    obtain ⟨node, hn, -⟩ := h
    exact hwalk w target (Registry.at?_isSome_iff.1 ⟨node, hn⟩) hcard
  | behave target =>
    obtain ⟨behavior, hb, -⟩ := h
    refine (succeeds_lift ⟨behavior, hb⟩).bind fun behavior' _ h₁ => ?_
    obtain rfl := Option.some_inj.1 (hb.symm.trans (lift_eq_some.1 h₁).1)
    refine (succeeds_lift (Registry.name?_isSome_iff.2 (Registry.at?_isSome_iff.1 ⟨_, hb⟩))).bind
      fun _ _ _ => succeeds_get.bind fun _ _ _ => ?_
    have hknown := p.environment.sound.behaviors behavior (Registry.at?_mem hb)
    exact (succeeds_lift (Parameters.exists_inSlots? hknown _)).bind fun _ _ _ =>
      succeeds_modify _
  | assign k expression =>
    refine (succeeds_lift (Registry.at?_isSome_iff.2 h.1)).bind fun _ _ _ => ?_
    refine (succeeds_lift (Registry.name?_isSome_iff.2 h.1)).bind fun _ _ _ => ?_
    exact (succeeds_modifyGet _).bind fun _ _ _ =>
      (succeeds_lift (ShownValue.exists_of? h.2.2 _)).bind fun _ _ _ => succeeds_modify _

theorem actions_succeed (hwalk : SucceedsWithin p n walkOption) (hkeeps : Keeps walkOption)
    (hcard : (w.unvisited p).card < n) (depth : Nat) {own : Domain → Nat} {as : List Action}
    (h : ∀ a ∈ as, a.Fits p own) :
    Succeeds (as.forM (Walk.action p walkOption depth) : StateT (Walk σ) Option Unit) w := by
  induction as generalizing w with
  | nil => exact succeeds_pure _
  | cons a as ih =>
    refine (action_succeeds hwalk hcard depth (h a (by simp))).bind fun _ w₁ h₁ => ?_
    have hsubset := unvisited_subset (p := p) (visited_action hkeeps h₁)
    exact ih ((Finset.card_le_card hsubset).trans_lt hcard) fun b hb => h b (by simp [hb])

end Actions

/-- The walk of an option succeeds if the walk may be deeper than there are options that it has not
visited. -/
theorem option_succeeds (hp : p.Fits) {m : Machine σ} (hm : m.Fits p) (n depth : Nat) :
    SucceedsWithin p n (Walk.option p m.options cycle n depth) := by
  induction n generalizing depth with
  | zero =>
    intro w i hi hcard
    omega
  | succ n ih =>
    intro w i hi hcard
    obtain ⟨node, hn⟩ := Registry.at?_isSome_iff.2 hi
    obtain ⟨a, ha⟩ := hm.getElem? hi
    have hafits := hm.options i node a hn ha
    have hnode := hp.options node (Registry.at?_mem hn)
    obtain ⟨state, hstate⟩ := Registry.at?_isSome_iff.2 hafits.executed
    refine (succeeds_lift ⟨node, hn⟩).bind fun node' w₁ h₁ => ?_
    obtain ⟨hn', rfl⟩ := lift_eq_some.1 h₁
    obtain rfl := Option.some_inj.1 (hn.symm.trans hn')
    refine (succeeds_lift (Registry.name?_isSome_iff.2 hi)).bind fun name w₂ h₂ => ?_
    obtain ⟨-, rfl⟩ := lift_eq_some.1 h₂
    refine (succeeds_lift ⟨a, ha⟩).bind fun a' w₃ h₃ => ?_
    obtain ⟨ha', rfl⟩ := lift_eq_some.1 h₃
    obtain rfl := Option.some_inj.1 (ha.symm.trans ha')
    refine succeeds_get.bind fun t w₄ h₄ => ?_
    obtain ⟨rfl, rfl⟩ := get_eq_some.1 h₄
    split
    · exact succeeds_pure _
    next hvisit =>
    refine (succeeds_modify _).bind fun _ w₅ h₅ => ?_
    obtain rfl := modify_eq_some.1 h₅
    refine (succeeds_lift ⟨state, hstate⟩).bind fun state' w₆ h₆ => ?_
    obtain ⟨hstate', rfl⟩ := lift_eq_some.1 h₆
    obtain rfl := Option.some_inj.1 (hstate.symm.trans hstate')
    refine (succeeds_lift (Registry.name?_isSome_iff.2 hafits.executed)).bind fun _ w₇ h₇ => ?_
    obtain ⟨-, rfl⟩ := lift_eq_some.1 h₇
    refine (succeeds_lift hafits.stateTime?).bind fun _ w₈ h₈ => ?_
    obtain ⟨-, rfl⟩ := lift_eq_some.1 h₈
    refine (succeeds_lift (Parameters.exists_bound? hnode.parameters _)).bind fun _ w₉ h₉ => ?_
    obtain ⟨-, rfl⟩ := lift_eq_some.1 h₉
    refine (succeeds_modify _).bind fun _ w₁₀ h₁₀ => ?_
    obtain rfl := modify_eq_some.1 h₁₀
    have hs := hnode.states state (Registry.at?_mem hstate)
    refine actions_succeed (ih (depth + 1)) (keeps_option n (depth + 1)) ?_ (depth + 1) hs.actions
    -- The option that was just entered is no longer among those that are not visited.
    refine lt_of_lt_of_le (Finset.card_lt_card (unvisited_ssubset hi ?_)) (Nat.le_of_lt_succ hcard)
    exact fun hmem => hvisit (.inl hmem)

end Walk

/-- **A snapshot can be taken** of every machine whose positions are in range. -/
theorem activeBehaviors?_succeeds {σ : Type} {p : Program σ} {m : Machine σ} (hp : p.Fits)
    (hm : m.Fits p) (cycle : Nat) {root : Nat} (hroot : root < p.graph.options.size)
    (w : World σ) : ∃ r, activeBehaviors? p m.options cycle root w = some r := by
  have hcard : (Walk.unvisited p (⟨[], [], w⟩ : Walk σ)).card < p.graph.options.size + 1 :=
    Nat.lt_succ_of_le ((Finset.card_filter_le _ _).trans (Finset.card_range _).le)
  obtain ⟨_, walk, h⟩ := Walk.option_succeeds hp hm _ 0 _ root hroot hcard
  exact ⟨(walk.entries, walk.world), by unfold activeBehaviors? StateT.run; rw [h]; rfl⟩

end BehaviorEngine
