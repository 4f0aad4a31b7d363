import Mathlib.Data.Finset.Card
import Mathlib.Data.Finset.Range
import BehaviorEngine.Proofs.Cycle.Options

/-!
Cycles end. In a program that fits together no look-up of a cycle leads nowhere, and options are
nested no deeper than there are options that have not run: each one is marked before its actions
run, so the options left become fewer with every level, whatever the activations form.
-/

namespace BehaviorEngine

open Partial

variable {σ : Type} {p : Program σ} {c : Cycle} {m : Machine σ} {i : Nat} {node : Graph.Node}
  {state : Graph.State}

/-! ### What expressions read -/

theorem Machine.Fits.getElem? (hm : m.Fits p) (hi : i < p.graph.options.size) :
    ∃ a, m.options[i]? = some a :=
  ⟨_, List.getElem?_eq_getElem (by rw [hm.length]; exact hi)⟩

theorem Graph.State.Fits.activated_lt {own : Domain → Nat} {states : Nat}
    (h : state.Fits p own states) : ∀ j ∈ state.activated, j < p.graph.options.size := by
  intro j hj
  obtain ⟨a, ha, hj⟩ := List.mem_filterMap.1 hj
  cases a with
  | activate target bindings =>
    obtain ⟨n, hn, -⟩ := h.actions _ ha
    cases hj
    exact Registry.at?_isSome_iff.1 ⟨n, hn⟩
  | behave | assign => cases hj

theorem Run.restsInTarget_succeeds (hm : m.Fits p) (hi : i < p.graph.options.size) :
    ∃ b, Run.restsInTarget p.graph m.options c.number i = some b := by
  obtain ⟨a, ha⟩ := hm.getElem? hi
  obtain ⟨n, hn⟩ := Registry.at?_isSome_iff.2 hi
  obtain ⟨s, hs⟩ := Registry.at?_isSome_iff.2 (hm.options i n a hn ha).active
  unfold Run.restsInTarget
  cases hr : a.ranLately c.number <;> simp [ha, hr, hn, hs]

theorem anyM_succeeds {α : Type} {f : α → Option Bool} {xs : List α}
    (h : ∀ x ∈ xs, ∃ b, f x = some b) : ∃ b, xs.anyM f = some b := by
  induction xs with
  | nil => exact ⟨false, rfl⟩
  | cons x xs ih =>
    obtain ⟨b, hb⟩ := h x (by simp)
    obtain ⟨b', hb'⟩ := ih fun y hy => h y (by simp [hy])
    cases b with
    | true => exact ⟨true, by simp [List.anyM, hb]⟩
    | false => exact ⟨b', by simp [List.anyM, hb, hb']⟩

/-- What the expressions of an option read can be found, and fits the option. -/
theorem Run.surroundings_succeeds (hm : m.Fits p) (hn : p.graph.options.at? i = some node)
    (hs : state.Fits p node.parameters.sizes node.states.size) :
    ∃ s, Run.surroundings p c i state m = some (s, m) ∧ s.Fits node.parameters.sizes ∧
      s.symbols = p.environment.symbols := by
  obtain ⟨a, ha⟩ := hm.getElem? (Registry.at?_isSome_iff.1 ⟨node, hn⟩)
  have hfits := hm.options i node a hn ha
  obtain ⟨time, ht⟩ := hfits.stateTime?
  refine ⟨_, Run.surroundings_eq_some.2 ⟨rfl, a, time, ha, ht, rfl⟩, ⟨hfits.parameters, ?_⟩, rfl⟩
  exact anyM_succeeds fun j hj => Run.restsInTarget_succeeds hm (hs.activated_lt j hj)

/-! ### Options that are left -/

instance : Decidable (m.Ran c i) :=
  decidable_of_iff (m.options[i]?.any (·.ranIn c.number) = true) (by
    unfold Machine.Ran
    cases m.options[i]? <;> simp)

/-- The options that have not run in a cycle. -/
def Machine.unran (m : Machine σ) (c : Cycle) : Finset Nat :=
  (Finset.range m.options.length).filter fun i => ¬ m.Ran c i

theorem Machine.mem_unran (hi : i < m.options.length) : i ∈ m.unran c ↔ ¬ m.Ran c i := by
  simp [Machine.unran, hi]

theorem Machine.unran_congr {m' : Machine σ} (hl : m'.options.length = m.options.length)
    (h : ∀ j, m'.Ran c j ↔ m.Ran c j) : m'.unran c = m.unran c := by
  unfold Machine.unran
  rw [hl]
  exact Finset.filter_congr fun j _ => not_congr (h j)

/-- The options left do not become more. -/
theorem Runs.unran_subset {t : Task} {depth : Nat} {m' : Machine σ} {events : List Event}
    (h : Runs p c t depth m events m') : m'.unran c ⊆ m.unran c := by
  intro j hj
  rw [Machine.unran, Finset.mem_filter, h.length_eq] at hj
  exact Finset.mem_filter.2 ⟨hj.1, fun hran => hj.2 (h.ran_mono hran)⟩

/-- An option that starts is no longer left. -/
theorem Machine.unran_start_ssubset {a : Activation} {initial : Nat} (ha : m.options[i]? = some a)
    (hr : ¬ m.Ran c i) :
    (m.modifyOption i fun a => a.start c initial).unran c ⊂ m.unran c := by
  have hstart : (m.modifyOption i fun a => a.start c initial).Ran c i := Machine.ran_start ha
  have hi : i ∈ m.unran c :=
    (Machine.mem_unran (List.getElem?_eq_some_iff.1 ha).1).2 hr
  refine Finset.ssubset_iff_subset_ne.2 ⟨fun j hj => ?_, fun h => ?_⟩
  · rw [Machine.unran, Finset.mem_filter, Machine.modifyOption_length] at hj
    refine Finset.mem_filter.2 ⟨hj.1, fun hran => hj.2 ?_⟩
    by_cases hij : i = j
    · exact hij ▸ hstart
    · exact (Machine.ran_modifyOption_of_ne hij).2 hran
  · rw [← h] at hi
    exact (Finset.mem_filter.1 hi).2 hstart

/-! ### Every part of a cycle succeeds -/

/-- The function that runs options succeeds where at most `n` options are left. -/
def Run.SucceedsWithin (p : Program σ) (c : Cycle) (n : Nat) (runOption : Nat → Run σ Unit) :
    Prop :=
  ∀ m i, m.Fits p → i < p.graph.options.size → ¬ m.Ran c i → (m.unran c).card ≤ n →
    Succeeds (runOption i) m

namespace Run

/-- The bindings of a call site in range can be evaluated. -/
theorem values_succeeds {s : Surroundings σ} {own room : Domain → Nat} {bindings : List Binding}
    (hs : s.Fits own) (hb : ∀ b ∈ bindings, b.Fits s.symbols own room) (site : Path)
    {write : Argument → Evaluate σ Unit}
    (hw : ∀ a st, a.index < room a.domain → Succeeds (write a) st) (st : Store σ) :
    Succeeds (Binding.values s site write 0 bindings) st :=
  Binding.values_succeeds hw hb
    (fun b hmem path => Expr.value_succeeds hs path _ (hb b hmem).expr) st

/-- The arguments of a call site in range are in range. -/
theorem values_lt {s : Surroundings σ} {symbols : Symbols σ} {own room : Domain → Nat}
    {bindings : List Binding} (hb : ∀ b ∈ bindings, b.Fits symbols own room) {site : Path}
    {write : Argument → Evaluate σ Unit} {k : Nat} {st st' : Store σ} {arguments : List Argument}
    (h : Binding.values s site write k bindings st = some (arguments, st')) :
    ∀ x ∈ arguments, x.index < room x.domain := by
  intro x hx
  have hkey : x.key ∈ bindings.map Binding.key := by
    rw [← Binding.values_keys h]
    exact List.mem_map_of_mem hx
  obtain ⟨b, hmem, hbx⟩ := List.mem_map.1 hkey
  cases b with
  | mk d i e =>
    obtain ⟨rfl, rfl⟩ : d = x.domain ∧ i = x.index := Prod.mk.inj hbx
    exact (hb _ hmem).1

theorem argumentsAt_succeeds {s : Surroundings σ} {own room : Domain → Nat}
    {bindings : List Binding} (hs : s.Fits own) (hb : ∀ b ∈ bindings, b.Fits s.symbols own room)
    (site : Path) (st : Store σ) : Succeeds (Run.argumentsAt s site bindings) st :=
  (values_succeeds hs hb site (fun _ _ _ => succeeds_pure _) st).bind fun _ _ _ =>
    (succeeds_modifyGet _).bind fun _ _ _ => succeeds_pure _

theorem values_of_argumentsAt {s : Surroundings σ} {bindings : List Binding} {site : Path}
    {st st' : Store σ} {arguments : List Argument}
    (h : Run.argumentsAt s site bindings st = some (arguments, st')) :
    ∃ st₁, Binding.values s site (fun _ => pure ()) 0 bindings st = some (arguments, st₁) ∧
      st'.world = st₁.world := by
  obtain ⟨arguments', st₁, hvalues, h⟩ := bind_eq_some.1 h
  obtain ⟨_, st₂, hremember, h⟩ := bind_eq_some.1 h
  obtain ⟨rfl, rfl⟩ := pure_eq_some.1 h
  have hstore := (Prod.mk.inj (modifyGet_eq_some.1 hremember)).2
  exact ⟨st₁, hvalues, by rw [← hstore]⟩

theorem evaluate_succeeds {α : Type} {x : Evaluate σ α} (h : Succeeds x m.store) :
    Succeeds (Run.evaluate x) m := by
  obtain ⟨a, store, h⟩ := h
  exact ⟨a, _, evaluate_eq_some.2 ⟨store, h, rfl⟩⟩

theorem activation_succeeds (hm : m.Fits p) (hi : i < p.graph.options.size) :
    Succeeds (Run.activation i) m := by
  obtain ⟨a, ha⟩ := hm.getElem? hi
  exact ⟨a, m, activation_eq_some.2 ⟨ha, rfl⟩⟩

section Actions

variable {n : Nat} {runOption : Nat → Run σ Unit} {s : Surroundings σ} {own : Domain → Nat}

theorem activate_succeeds (hrun : SucceedsWithin p c n runOption) (hm : m.Fits p)
    (hcard : (m.unran c).card ≤ n) (hsur : Run.surroundings p c i state m = some (s, m))
    (hs : s.Fits own) (hsymbols : s.symbols = p.environment.symbols) (site : Path) {target : Nat}
    {bindings : List Binding} (h : (Action.activate target bindings).Fits p own) :
    Succeeds (Run.action p c runOption i state site (.activate target bindings)) m := by
  obtain ⟨n', hn, hb⟩ := h
  rw [← hsymbols] at hb
  have htarget := Registry.at?_isSome_iff.1 ⟨n', hn⟩
  refine (activation_succeeds hm htarget).bind fun b m₁ h₁ => ?_
  obtain ⟨hb₁, rfl⟩ := activation_eq_some.1 h₁
  have hbfits := hm.options target n' b hn hb₁
  split
  · exact succeeds_pure _
  next hr =>
  refine Succeeds.bind ⟨s, m, hsur⟩ fun s' m₁ h₁ => ?_
  cases hsur.symm.trans h₁
  refine (evaluate_succeeds (argumentsAt_succeeds hs hb site m.store)).bind
    fun arguments m₂ h₂ => ?_
  obtain ⟨store, hargs, rfl⟩ := evaluate_eq_some.1 h₂
  obtain ⟨_, hvalues, -⟩ := values_of_argumentsAt hargs
  refine Succeeds.bind ⟨b, _, activation_eq_some.2 ⟨hb₁, rfl⟩⟩ fun b' m₃ h₃ => ?_
  obtain ⟨hb', rfl⟩ := activation_eq_some.1 h₃
  obtain rfl := Option.some_inj.1 (hb₁.symm.trans hb')
  have hlt : ∀ x ∈ arguments, x.index < (b.parameters.get x.domain).length := fun x hx => by
    rw [hbfits.parameters]
    exact values_lt hb hvalues x hx
  refine (succeeds_lift (Activation.foldlM_bind?_succeeds hlt)).bind fun bound m₄ h₄ => ?_
  obtain ⟨hbound, rfl⟩ := lift_eq_some.1 h₄
  refine Succeeds.bind ⟨(), _, modifyActivation_eq_some.2 rfl⟩ fun _ m₅ h₅ => ?_
  obtain rfl := modifyActivation_eq_some.1 h₅
  -- Binding parameters leaves as many options to run as before, and the target is one of them.
  have hran : ∀ j, ({ m with store }.modifyOption target fun _ => bound).Ran c j ↔ m.Ran c j :=
    fun j => Machine.ran_bind_iff hb₁ hbound
  refine hrun _ target ?_ htarget ?_ ?_
  · refine Machine.Fits.modifyOption ⟨hm.length, hm.options, hm.behaviors⟩ fun n b' hn' hb' => ?_
    obtain rfl := Option.some_inj.1 (hn.symm.trans hn')
    exact hbfits.bind hbound
  · rw [hran, Machine.ran_iff hb₁]
    exact hr
  · rwa [Machine.unran_congr (by simp) hran]

theorem behave_succeeds (hm : m.Fits p) (hsur : Run.surroundings p c i state m = some (s, m))
    (hs : s.Fits own) (hsymbols : s.symbols = p.environment.symbols) (site : Path) {target : Nat}
    {bindings : List Binding} (h : (Action.behave target bindings).Fits p own) :
    Succeeds (Run.action p c runOption i state site (.behave target bindings)) m := by
  obtain ⟨behavior, hbehavior, hb⟩ := h
  rw [← hsymbols] at hb
  have htarget : target < m.behaviors.length := by
    rw [hm.behaviors]
    exact Registry.at?_isSome_iff.1 ⟨behavior, hbehavior⟩
  refine succeeds_get.bind fun m₁ m₂ h₁ => ?_
  obtain ⟨rfl, rfl⟩ := get_eq_some.1 h₁
  refine (succeeds_lift ⟨_, List.getElem?_eq_getElem htarget⟩).bind fun last m₂ h₂ => ?_
  obtain ⟨-, rfl⟩ := lift_eq_some.1 h₂
  split
  · exact succeeds_pure _
  refine (succeeds_lift ⟨behavior, hbehavior⟩).bind fun behavior' m₂ h₂ => ?_
  obtain ⟨hbehavior', rfl⟩ := lift_eq_some.1 h₂
  obtain rfl := Option.some_inj.1 (hbehavior.symm.trans hbehavior')
  refine Succeeds.bind ⟨s, m, hsur⟩ fun s' m₁ h₁ => ?_
  cases hsur.symm.trans h₁
  refine (evaluate_succeeds (values_succeeds hs hb site
    (fun _ _ ha => Evaluate.writeSlot_succeeds ha _) m.store)).bind fun arguments m₂ _ => ?_
  refine (evaluate_succeeds (succeeds_modifyGet _)).bind fun changed m₃ _ => ?_
  refine (succeeds_modify _).bind fun _ m₄ _ => ?_
  cases changed with
  | true =>
    exact (evaluate_succeeds (succeeds_modify _)).bind fun _ _ _ =>
      evaluate_succeeds (succeeds_modify _)
  | false => exact evaluate_succeeds (succeeds_modify _)

theorem assign_succeeds (hsur : Run.surroundings p c i state m = some (s, m)) (hs : s.Fits own)
    (hsymbols : s.symbols = p.environment.symbols) (site : Path) {d : Domain} {k : Nat}
    {expression : Expr d} (h : (Action.assign k expression).Fits p own) :
    Succeeds (Run.action p c runOption i state site (.assign k expression)) m := by
  obtain ⟨hk, hx, -⟩ := h
  rw [← hsymbols] at hx
  refine Succeeds.bind ⟨s, m, hsur⟩ fun s' m₁ h₁ => ?_
  cases hsur.symm.trans h₁
  refine (evaluate_succeeds (Expr.value_succeeds hs site expression hx m.store)).bind
    fun x m₂ _ => ?_
  refine (succeeds_lift (Registry.at?_isSome_iff.2 hk)).bind fun symbol m₃ _ => ?_
  exact (evaluate_succeeds (succeeds_modify _)).bind fun _ _ _ => succeeds_modify _

theorem action_succeeds (hrun : SucceedsWithin p c n runOption) (hm : m.Fits p)
    (hn : p.graph.options.at? i = some node)
    (hs : state.Fits p node.parameters.sizes node.states.size) (hcard : (m.unran c).card ≤ n)
    (site : Path) {a : Action} (ha : a.Fits p node.parameters.sizes) :
    Succeeds (Run.action p c runOption i state site a) m := by
  obtain ⟨s, hsur, hfits, hsymbols⟩ := surroundings_succeeds (c := c) hm hn hs
  cases a with
  | activate => exact activate_succeeds hrun hm hcard hsur hfits hsymbols site ha
  | behave => exact behave_succeeds hm hsur hfits hsymbols site ha
  | assign => exact assign_succeeds hsur hfits hsymbols site ha

theorem actions_succeed (hrun : SucceedsWithin p c n runOption) (hfollows : Follows p c runOption)
    (hm : m.Fits p) (hn : p.graph.options.at? i = some node)
    (hs : state.Fits p node.parameters.sizes node.states.size) (hcard : (m.unran c).card ≤ n)
    (path : Path) (k : Nat) {as : List Action} (has : ∀ a ∈ as, a.Fits p node.parameters.sizes) :
    Succeeds ((as.zipIdx k).forM fun (a, k) => Run.action p c runOption i state (k :: path) a :
      Run σ Unit) m := by
  induction as generalizing k m with
  | nil => exact succeeds_pure _
  | cons a as ih =>
    refine (action_succeeds hrun hm hn hs hcard (k :: path) (has a (by simp))).bind
      fun _ m₁ h₁ => ?_
    obtain ⟨_, hruns⟩ := runs_of_action hfollows 0 h₁
    exact ih (hruns.fits hm) ((Finset.card_le_card hruns.unran_subset).trans hcard) (k + 1)
      fun b hb => has b (by simp [hb])

theorem unranOption_succeeds (hp : p.Fits) (hrun : SucceedsWithin p c n runOption)
    (hfollows : Follows p c runOption) :
    SucceedsWithin p c (n + 1) (Run.unranOption p c runOption) := by
  intro m i hm hi hran hcard
  obtain ⟨a, ha⟩ := hm.getElem? hi
  obtain ⟨node, hn⟩ := Registry.at?_isSome_iff.2 hi
  have hnode := hp.options node (Registry.at?_mem hn)
  have hafits := hm.options i node a hn ha
  have hexecuted : (a.start c node.initial).executed < node.states.size := by
    rw [Activation.start_executed]
    split
    · exact hafits.active
    · exact hnode.initial
  obtain ⟨state, hstate⟩ := Registry.at?_isSome_iff.2 hexecuted
  have hs := hnode.states state (Registry.at?_mem hstate)
  -- The machine in which the actions start has one option less to run.
  have hm₁ : (m.modifyOption i fun a => a.start c node.initial).Fits p :=
    hm.modifyOption fun n b hn' hb => by
      obtain rfl := Option.some_inj.1 (hn.symm.trans hn')
      obtain rfl := Option.some_inj.1 (ha.symm.trans hb)
      exact hafits.start hexecuted
  have hcard₁ : ((m.modifyOption i fun a => a.start c node.initial).unran c).card ≤ n := by
    have := Finset.card_lt_card (@Machine.unran_start_ssubset σ c m i a node.initial ha hran)
    omega
  refine (succeeds_lift ⟨node, hn⟩).bind fun node' m₁ h₁ => ?_
  obtain ⟨hn', rfl⟩ := lift_eq_some.1 h₁
  obtain rfl := Option.some_inj.1 (hn.symm.trans hn')
  refine Succeeds.bind ⟨(), _, modifyActivation_eq_some.2 rfl⟩ fun _ m₂ h₂ => ?_
  obtain rfl := modifyActivation_eq_some.1 h₂
  refine Succeeds.bind ⟨_, _, activation_eq_some.2 ⟨Machine.modifyOption_getElem? ha, rfl⟩⟩
    fun b m₃ h₃ => ?_
  obtain ⟨hb, rfl⟩ := activation_eq_some.1 h₃
  obtain rfl := Option.some_inj.1 ((Machine.modifyOption_getElem? ha).symm.trans hb)
  refine (succeeds_lift ⟨state, hstate⟩).bind fun state' m₄ h₄ => ?_
  obtain ⟨hstate', rfl⟩ := lift_eq_some.1 h₄
  obtain rfl := Option.some_inj.1 (hstate.symm.trans hstate')
  refine (actions_succeed hrun hfollows hm₁ hn hs hcard₁ _ 0 hs.actions).bind fun _ m₅ h₅ => ?_
  obtain ⟨_, hruns⟩ := runs_of_actions hfollows 0 h₅
  have hm₅ := hruns.fits hm₁
  obtain ⟨s, hsur, hfits, hsymbols⟩ := surroundings_succeeds (c := c) hm₅ hn hs
  refine Succeeds.bind ⟨s, m₅, hsur⟩ fun s' m₆ h₆ => ?_
  cases hsur.symm.trans h₆
  have hdecision := hs.decision
  rw [← hsymbols] at hdecision
  refine (evaluate_succeeds (Statement.select_succeeds hfits _ state.decision hdecision
    m₅.store)).bind fun next m₇ h₇ => ?_
  obtain ⟨store, hselect, rfl⟩ := evaluate_eq_some.1 h₇
  have hnext := hdecision.targets_lt next (Statement.select_mem_targets hselect)
  exact (succeeds_lift (Registry.at?_isSome_iff.2 hnext)).bind fun _ _ _ => succeeds_modify _

end Actions

/-- **Running an option succeeds** if options may be nested as deep as there are options left. -/
theorem option_succeeds (hp : p.Fits) (n : Nat) : SucceedsWithin p c n (Run.option p c n) := by
  induction n with
  | zero =>
    intro m i hm hi hran hcard
    have hmem := (Machine.mem_unran (c := c) (hm.length.symm ▸ hi)).2 hran
    rw [Finset.card_eq_zero.1 (Nat.le_zero.1 hcard)] at hmem
    cases hmem
  | succ n ih =>
    intro m i hm hi hran hcard
    refine (activation_succeeds hm hi).bind fun a m₁ h₁ => ?_
    obtain ⟨ha, rfl⟩ := activation_eq_some.1 h₁
    rw [if_neg (mt (Machine.ran_iff ha).2 hran)]
    exact unranOption_succeeds hp ih (follows_option n) m i hm hi hran hcard

/-- **A cycle succeeds** from every option of a program that fits together. -/
theorem root_succeeds (hp : p.Fits) (hm : m.Fits p) (hi : i < p.graph.options.size) :
    Succeeds (Run.option p c p.graph.options.size i) m := by
  by_cases hr : m.Ran c i
  · obtain ⟨a, ha, hra⟩ := hr
    obtain ⟨k, hk⟩ := Nat.exists_eq_succ_of_ne_zero (Nat.ne_zero_of_lt hi)
    rw [hk]
    refine (activation_succeeds hm hi).bind fun b m₁ h₁ => ?_
    obtain ⟨hb, rfl⟩ := activation_eq_some.1 h₁
    obtain rfl := Option.some_inj.1 (ha.symm.trans hb)
    rw [if_pos hra]
    exact succeeds_pure _
  · refine option_succeeds hp _ _ i hm hi hr ?_
    rw [← hm.length]
    exact (Finset.card_filter_le _ _).trans (Finset.card_range _).le

end Run

end BehaviorEngine
