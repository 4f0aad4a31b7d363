import BehaviorEngine.Proofs.Cycle.Runs
import BehaviorEngine.Proofs.Graph.Evaluation

/-!
What a run of a cycle does to the options. An option that has run is not touched again until the
cycle ends, and an option that does not run is not touched at all; so the state in which an option
runs is settled before the cycle starts. Every change keeps the positions that an option holds in
the range of its states and parameters.
-/

namespace BehaviorEngine

/-! ### Single options -/

namespace Activation

variable {a b : Activation} {c : Cycle} {n : Graph.Node} {i : Nat}

/-- The state in which an option runs: the active one if the run continues one of the cycle before,
and otherwise the initial one. -/
theorem start_executed : (a.start c i).executed =
    if a.continues c.number then a.active else i := by
  unfold start
  split <;> rfl

theorem start_active : (a.start c i).active = (a.start c i).executed := by
  unfold start
  split <;> rfl

@[simp] theorem start_ranIn : (a.start c i).ranIn c.number = true := by
  unfold start ranIn
  split <;> simp

@[simp] theorem finish_ranIn (k : Nat) : (a.finish c i).ranIn k = a.ranIn k := by
  unfold finish
  split <;> rfl

/-- The positions that an option holds are in range, and it has values for all its parameters. -/
structure Fits (n : Graph.Node) (a : Activation) : Prop where
  active : a.active < n.states.size
  executed : a.executed < n.states.size
  clocks : a.clocks.length = n.states.size
  parameters : ∀ d, (a.parameters.get d).length = n.parameters.sizes d

theorem fits_ofNode (h : n.initial < n.states.size) : (ofNode n).Fits n where
  active := h
  executed := h
  clocks := by simp [ofNode, Registry.values_length]
  parameters := fun d => by simp [ofNode, Registry.values_length, Parameters.sizes]

theorem Fits.stateTime? (h : a.Fits n) : ∃ time, a.stateTime? a.executed = some time := by
  have hlt : a.executed < a.clocks.length := by
    rw [h.clocks]
    exact h.executed
  exact ⟨_, by rw [Activation.stateTime?, List.getElem?_eq_getElem hlt, Option.map_some]⟩

theorem Fits.forget (h : a.Fits n) : a.forget.Fits n :=
  ⟨h.active, h.executed, h.clocks, h.parameters⟩

theorem Fits.start (h : a.Fits n) (hi : (a.start c i).executed < n.states.size) :
    (a.start c i).Fits n := by
  refine ⟨by rwa [start_active], hi, ?_, ?_⟩
  · unfold Activation.start switch
    split <;> simp [h.clocks]
  · unfold Activation.start switch
    split <;> exact h.parameters

theorem Fits.finish (h : a.Fits n) (hi : i < n.states.size) : (a.finish c i).Fits n := by
  unfold Activation.finish switch
  split
  · exact h
  · exact ⟨hi, h.executed, by simp [h.clocks], h.parameters⟩

/-- Binding a parameter changes nothing but the values of the parameters. -/
theorem bind?_eq_some {x : Argument} (h : a.bind? x = some b) :
    b = { a with parameters := b.parameters } ∧
      ∀ d, (b.parameters.get d).length = (a.parameters.get d).length := by
  unfold bind? at h
  split at h
  · cases h
    refine ⟨rfl, fun d => ?_⟩
    by_cases hd : d = x.domain
    · subst hd; simp
    · rw [PerDomain.get_modify_of_ne _ _ hd]
  · cases h

/-- Binding parameters changes nothing but their values. -/
theorem foldlM_bind?_eq_some {xs : List Argument} (h : xs.foldlM bind? a = some b) :
    b = { a with parameters := b.parameters } ∧
      ∀ d, (b.parameters.get d).length = (a.parameters.get d).length := by
  induction xs generalizing a with
  | nil =>
    cases h
    exact ⟨rfl, fun _ => rfl⟩
  | cons x xs ih =>
    obtain ⟨a', hx, h⟩ := Option.bind_eq_some_iff.1 (List.foldlM_cons.symm.trans h)
    obtain ⟨e, hl⟩ := bind?_eq_some hx
    obtain ⟨e', hl'⟩ := ih h
    refine ⟨?_, fun d => (hl' d).trans (hl d)⟩
    rw [e', e]

theorem Fits.bind (h : a.Fits n) {xs : List Argument} (hb : xs.foldlM bind? a = some b) :
    b.Fits n := by
  obtain ⟨e, hl⟩ := foldlM_bind?_eq_some hb
  rw [e]
  exact ⟨h.active, h.executed, h.clocks, fun d => (hl d).trans (h.parameters d)⟩

/-- Parameters in range can be bound. -/
theorem foldlM_bind?_succeeds {xs : List Argument} (h : ∀ x ∈ xs,
    x.index < (a.parameters.get x.domain).length) : ∃ b, xs.foldlM bind? a = some b := by
  induction xs generalizing a with
  | nil => exact ⟨a, rfl⟩
  | cons x xs ih =>
    have hx : ∃ a', a.bind? x = some a' := ⟨_, if_pos (h x (by simp))⟩
    obtain ⟨a', hx⟩ := hx
    obtain ⟨b, hb⟩ := ih (a := a') fun y hy => by
      rw [(bind?_eq_some hx).2]
      exact h y (by simp [hy])
    exact ⟨b, by rw [List.foldlM_cons, hx]; exact hb⟩

end Activation

/-! ### All options -/

/-- The options that a part of a cycle is asked to run. -/
def Task.targets : Task → List Nat
  | .option i => [i]
  | .action _ _ _ a => a.option?.toList
  | .actions _ _ _ _ as => as.filterMap Action.option?

namespace Machine

variable {σ : Type} {m : Machine σ} {i j : Nat} {f : Activation → Activation} {a : Activation}

/-- An option has run in a cycle. -/
def Ran (m : Machine σ) (c : Cycle) (i : Nat) : Prop :=
  ∃ a, m.options[i]? = some a ∧ a.ranIn c.number = true

theorem modifyOption_getElem? (h : m.options[i]? = some a) :
    (m.modifyOption i f).options[i]? = some (f a) := by simp [modifyOption, h]

theorem modifyOption_getElem?_of_ne (h : i ≠ j) :
    (m.modifyOption i f).options[j]? = m.options[j]? := by simp [modifyOption, h]

@[simp] theorem modifyOption_length :
    (m.modifyOption i f).options.length = m.options.length := by simp [modifyOption]

@[simp] theorem modifyOption_assigned : (m.modifyOption i f).assigned = m.assigned := rfl

/-- The options hold positions in range, and there is an entry for each option and behavior. -/
structure Fits (p : Program σ) (m : Machine σ) : Prop where
  length : m.options.length = p.graph.options.size
  options : ∀ i n a, p.graph.options.at? i = some n → m.options[i]? = some a → a.Fits n
  behaviors : m.behaviors.length = p.environment.behaviors.size

theorem Fits.modifyOption {p : Program σ} (h : m.Fits p)
    (hf : ∀ n a, p.graph.options.at? i = some n → m.options[i]? = some a → (f a).Fits n) :
    (m.modifyOption i f).Fits p where
  length := by simp [h.length]
  options := fun j n a hn ha => by
    by_cases hij : i = j
    · subst hij
      cases hb : m.options[i]? with
      | none =>
        simp [Machine.modifyOption, hb] at ha
      | some b =>
        rw [modifyOption_getElem? hb] at ha
        cases ha
        exact hf n b hn hb
    · rw [modifyOption_getElem?_of_ne hij] at ha
      exact h.options j n a hn ha
  behaviors := h.behaviors

theorem ran_iff (ha : m.options[i]? = some a) {c : Cycle} :
    m.Ran c i ↔ a.ranIn c.number = true := by
  constructor
  · rintro ⟨b, hb, hr⟩
    obtain rfl := Option.some_inj.1 (ha.symm.trans hb)
    exact hr
  · exact fun hr => ⟨a, ha, hr⟩

theorem not_ran {c : Cycle} (ha : m.options[i]? = some a) (hr : a.ranIn c.number = false) :
    ¬ m.Ran c i := by
  rw [ran_iff ha, hr]
  exact Bool.false_ne_true

theorem ran_modifyOption_of_ne {c : Cycle} (h : i ≠ j) :
    (m.modifyOption i f).Ran c j ↔ m.Ran c j := by
  unfold Ran
  rw [modifyOption_getElem?_of_ne h]

/-- An option that starts has run. -/
theorem ran_start {c : Cycle} (ha : m.options[i]? = some a) {k : Nat} :
    (m.modifyOption i fun a => a.start c k).Ran c i :=
  ⟨_, modifyOption_getElem? ha, Activation.start_ranIn⟩

/-- Binding the parameters of an option does not make it run. -/
theorem ran_bind_iff {store : Store σ} {bound : Activation} {xs : List Argument} {c : Cycle}
    (ha : m.options[i]? = some a) (hb : xs.foldlM Activation.bind? a = some bound) :
    ({ m with store }.modifyOption i fun _ => bound).Ran c j ↔ m.Ran c j := by
  by_cases hij : i = j
  · subst hij
    rw [ran_iff (modifyOption_getElem? (m := { m with store }) ha), ran_iff ha,
      (Activation.foldlM_bind?_eq_some hb).1]
    rfl
  · exact ran_modifyOption_of_ne (m := { m with store }) hij

end Machine

/-- The start of an option in one of its states keeps all positions in range. -/
theorem Machine.Fits.start {σ : Type} {p : Program σ} {c : Cycle} {m : Machine σ} {i : Nat}
    {a : Activation} {node : Graph.Node} {state : Graph.State} (hm : m.Fits p)
    (ha : m.options[i]? = some a) (hn : p.graph.options.at? i = some node)
    (hs : node.states.at? (a.start c node.initial).executed = some state) :
    (m.modifyOption i fun a => a.start c node.initial).Fits p := by
  refine hm.modifyOption fun n b hn' hb => ?_
  obtain rfl := Option.some_inj.1 (hn.symm.trans hn')
  obtain rfl := Option.some_inj.1 (ha.symm.trans hb)
  exact (hm.options _ _ _ hn ha).start (Registry.at?_isSome_iff.1 ⟨_, hs⟩)

/-- Binding the parameters of an option keeps all positions in range. -/
theorem Machine.Fits.bind {σ : Type} {p : Program σ} {m : Machine σ} {i : Nat}
    {a bound : Activation} {store : Store σ} {xs : List Argument} (hm : m.Fits p)
    (ha : m.options[i]? = some a) (hb : xs.foldlM Activation.bind? a = some bound) :
    ({ m with store }.modifyOption i fun _ => bound).Fits p := by
  refine Machine.Fits.modifyOption ⟨hm.length, hm.options, hm.behaviors⟩ ?_
  intro n a' hn ha'
  obtain rfl := Option.some_inj.1 (ha.symm.trans ha')
  exact (hm.options _ _ _ hn ha).bind hb

namespace Runs

variable {σ : Type} {p : Program σ} {c : Cycle} {t : Task} {depth : Nat} {m m' : Machine σ}
  {events : List Event}

/-- **An option that has run is not touched again.** -/
theorem untouched (h : Runs p c t depth m events m') {j : Nat} {b : Activation}
    (hb : m.options[j]? = some b) (hj : b.ranIn c.number = true) : m'.options[j]? = some b := by
  induction h with
  | again | skipOption | skipBehavior | nil => exact hb
  | @enter i _ _ m m₁ a _ _ _ _ _ ha hr _ _ _ _ _ _ ih =>
    have hij : i ≠ j := by
      rintro rfl
      rw [ha] at hb
      cases hb
      rw [hr] at hj
      cases hj
    rw [Machine.modifyOption_getElem?_of_ne hij]
    exact ih (by rwa [Machine.modifyOption_getElem?_of_ne hij])
  | @activate _ _ target _ _ _ m _ a _ _ _ _ _ ha hr _ _ _ _ ih =>
    have hij : target ≠ j := by
      rintro rfl
      rw [ha] at hb
      cases hb
      rw [hr] at hj
      cases hj
    exact ih (by rwa [Machine.modifyOption_getElem?_of_ne hij])
  | behave | assign => exact hb
  | cons _ _ ih ihs => exact ihs (ih hb)

theorem ran_mono (h : Runs p c t depth m events m') {j : Nat} (hj : m.Ran c j) : m'.Ran c j := by
  obtain ⟨b, hb, hr⟩ := hj
  exact ⟨b, h.untouched hb hr, hr⟩

/-- While an option runs, it stays as it was started. -/
theorem keeps_start {i k : Nat} {a : Activation}
    (h : Runs p c t depth (m.modifyOption i fun a => a.start c k) events m')
    (ha : m.options[i]? = some a) : m'.options[i]? = some (a.start c k) :=
  h.untouched (Machine.modifyOption_getElem? ha) Activation.start_ranIn

/-- Every part of a cycle keeps the number of options. -/
theorem length_eq (h : Runs p c t depth m events m') : m'.options.length = m.options.length := by
  induction h with
  | again | skipOption | skipBehavior | nil | behave | assign => rfl
  | enter _ _ _ _ _ _ _ _ ih => simpa using ih
  | activate _ _ _ _ _ _ ih => simpa using ih
  | cons _ _ ih ihs => exact ihs.trans ih

/-- An option that has run at the end of its own run has run. -/
theorem targets_ran (h : Runs p c t depth m events m') : ∀ j ∈ t.targets, m'.Ran c j := by
  induction h with
  | again ha hr =>
    intro j hj
    obtain rfl := List.mem_singleton.1 hj
    exact ⟨_, ha, hr⟩
  | @enter i _ _ m m₁ a node _ _ _ _ ha _ _ _ hacts _ _ _ _ =>
    intro j hj
    obtain rfl := List.mem_singleton.1 hj
    have hend := hacts.keeps_start ha
    exact ⟨_, Machine.modifyOption_getElem? hend, by simp⟩
  | skipOption ha hr =>
    intro j hj
    obtain rfl : j = _ := by simpa [Task.targets, Action.option?] using hj
    exact ⟨_, ha, hr⟩
  | activate _ _ _ _ _ _ ih =>
    intro j hj
    obtain rfl : j = _ := by simpa [Task.targets, Action.option?] using hj
    exact ih _ (List.mem_singleton_self _)
  | skipBehavior | behave | assign => simp [Task.targets, Action.option?]
  | nil => simp [Task.targets]
  | cons h hs ih ihs =>
    intro j hj
    rw [Task.targets, List.filterMap_cons] at hj
    split at hj
    · exact ihs j hj
    · next target htarget =>
      rcases List.mem_cons.1 hj with rfl | hj
      · exact hs.ran_mono (ih _ (by simp [Task.targets, htarget]))
      · exact ihs j hj

/-- **An option that does not run is not touched.** -/
theorem unran (h : Runs p c t depth m events m') {j : Nat} {b : Activation}
    (hb : m'.options[j]? = some b) (hj : b.ranIn c.number = false) : m.options[j]? = some b := by
  induction h with
  | again | skipOption | skipBehavior | nil => exact hb
  | @enter i _ _ m m₁ a node _ _ _ _ ha _ _ _ hacts _ _ _ ih =>
    have hij : i ≠ j := by
      rintro rfl
      have hend := hacts.keeps_start ha
      obtain rfl := Option.some_inj.1 ((Machine.modifyOption_getElem? hend).symm.trans hb)
      simp at hj
    rw [Machine.modifyOption_getElem?_of_ne hij] at hb
    have := ih hb
    rwa [Machine.modifyOption_getElem?_of_ne hij] at this
  | @activate _ _ target _ _ _ m _ a _ _ _ _ _ ha hr _ _ _ hrun ih =>
    have hij : target ≠ j := by
      rintro rfl
      obtain ⟨a', ha', hr'⟩ := hrun.targets_ran _ (List.mem_singleton_self _)
      rw [hb] at ha'
      cases ha'
      rw [hj] at hr'
      cases hr'
    have := ih hb
    rwa [Machine.modifyOption_getElem?_of_ne hij] at this
  | behave | assign => exact hb
  | cons _ _ ih ihs => exact ih (ihs hb)

/-- **A cycle keeps all positions in range.** -/
theorem fits (h : Runs p c t depth m events m') (hm : m.Fits p) : m'.Fits p := by
  induction h with
  | again | skipOption | skipBehavior | nil => exact hm
  | @enter i _ _ m m₁ a node _ _ _ _ ha hr hn hs _ _ _ hnext ih =>
    have hacts := ih (hm.start ha hn hs)
    refine Machine.Fits.modifyOption ⟨hacts.length, hacts.options, hacts.behaviors⟩ ?_
    intro n b hn' hb
    obtain rfl := Option.some_inj.1 (hn.symm.trans hn')
    exact (hacts.options _ _ _ hn hb).finish hnext
  | activate ha _ _ _ hb _ ih => exact ih (hm.bind ha hb)
  | behave => exact ⟨hm.length, hm.options, by simpa using hm.behaviors⟩
  | assign => exact ⟨hm.length, hm.options, hm.behaviors⟩
  | cons _ _ ih ihs => exact ihs (ih hm)

end Runs

end BehaviorEngine
