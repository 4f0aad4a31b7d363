import Mathlib.Logic.Relation
import BehaviorEngine.Proofs.Cycle.Options

/-!
What runs in a cycle. The options that a cycle enters are those that can be reached from the root by
following the activations in the states in which the options are as the cycle begins; each of them
is entered once, and each basic behavior that one of these states names runs once. The cycle walks
depth first and skips what has run, so the proof is the one of a depth-first search: what is entered
is reachable, and all that is activated from an entered state has run in the end.
-/

namespace BehaviorEngine

variable {σ : Type}

/-! ### Events -/

/-- The option that an event enters. -/
def Event.option? (e : Event) : Option Nat :=
  match e.happening with
  | .entered i _ => some i
  | _ => none

/-- The basic behavior that an event runs. -/
def Event.behavior? (e : Event) : Option Nat :=
  match e.happening with
  | .behaved b => some b
  | _ => none

/-- The options that are entered, in their order. -/
def entered (events : List Event) : List Nat := events.filterMap Event.option?

/-- The basic behaviors that run, in their order. -/
def behaved (events : List Event) : List Nat := events.filterMap Event.behavior?

@[simp] theorem entered_nil : entered [] = [] := rfl

@[simp] theorem entered_cons {depth i k : Nat} {events : List Event} :
    entered (⟨depth, .entered i k⟩ :: events) = i :: entered events := rfl

@[simp] theorem entered_append {events events' : List Event} :
    entered (events ++ events') = entered events ++ entered events' := List.filterMap_append

@[simp] theorem entered_behaved {depth b : Nat} : entered [⟨depth, .behaved b⟩] = [] := rfl

@[simp] theorem entered_assigned {depth k : Nat} {d : Domain} {x : d.Value} :
    entered [⟨depth, .assigned k x⟩] = [] := rfl

@[simp] theorem behaved_nil : behaved [] = [] := rfl

@[simp] theorem behaved_cons {depth i k : Nat} {events : List Event} :
    behaved (⟨depth, .entered i k⟩ :: events) = behaved events := rfl

@[simp] theorem behaved_append {events events' : List Event} :
    behaved (events ++ events') = behaved events ++ behaved events' := List.filterMap_append

@[simp] theorem behaved_behaved {depth b : Nat} : behaved [⟨depth, .behaved b⟩] = [b] := rfl

@[simp] theorem behaved_assigned {depth k : Nat} {d : Domain} {x : d.Value} :
    behaved [⟨depth, .assigned k x⟩] = [] := rfl

/-! ### Reachable options -/

/-- The basic behavior that an action names. -/
def Action.behavior? : Action → Option Nat
  | .behave behavior _ => some behavior
  | _ => none

/-- The basic behaviors that the actions of a state name. -/
def Graph.State.behaviors (s : Graph.State) : List Nat := s.actions.filterMap Action.behavior?

/-- The position of the state in which an option is as a cycle begins: the active state if the
option ran in the cycle before and that is not forgotten, and the initial state otherwise. -/
def Activation.stateIn (a : Activation) (cycle initial : Nat) : Nat :=
  if a.continues cycle then a.active else initial

/-- The state in which an option of a graph is as a cycle begins. -/
def Graph.stateIn? (g : Graph) (options : List Activation) (cycle i : Nat) :
    Option Graph.State := do
  let node ← g.options.at? i
  let a ← options[i]?
  node.states.at? (a.stateIn cycle node.initial)

/-- An action of the state in which the option `i` is activates the option `j`. -/
def Graph.Activates (g : Graph) (options : List Activation) (cycle i j : Nat) : Prop :=
  ∃ s, g.stateIn? options cycle i = some s ∧ j ∈ s.activated

/-- An option can be reached from another one by following activations. -/
def Graph.Reaches (g : Graph) (options : List Activation) (cycle : Nat) : Nat → Nat → Prop :=
  Relation.ReflTransGen (g.Activates options cycle)

/-! ### States are settled as the cycle begins -/

/-- Each option that has not run is in the state in which it was as the cycle began. -/
def Machine.Settled (c : Cycle) (options : List Activation) (m : Machine σ) : Prop :=
  ∀ (i : Nat) (a : Activation), m.options[i]? = some a → a.ranIn c.number = false →
    ∃ b, options[i]? = some b ∧ b.active = a.active ∧ b.lastCycle = a.lastCycle

namespace Machine.Settled

variable {c : Cycle} {options : List Activation} {m : Machine σ} {i : Nat} {a bound : Activation}

theorem self (m : Machine σ) : m.Settled c m.options := fun _ a ha _ => ⟨a, ha, rfl, rfl⟩

theorem start {initial : Nat} (h : m.Settled c options) (ha : m.options[i]? = some a) :
    (m.modifyOption i fun a => a.start c initial).Settled c options := by
  intro j b hb hr
  by_cases hij : i = j
  · subst hij
    obtain rfl := Option.some_inj.1 ((Machine.modifyOption_getElem? ha).symm.trans hb)
    rw [Activation.start_ranIn] at hr
    cases hr
  · rw [Machine.modifyOption_getElem?_of_ne hij] at hb
    exact h j b hb hr

theorem bind {store : Store σ} {xs : List Argument} (h : m.Settled c options)
    (ha : m.options[i]? = some a) (hb : xs.foldlM Activation.bind? a = some bound) :
    ({ m with store }.modifyOption i fun _ => bound).Settled c options := by
  intro j b hj hr
  by_cases hij : i = j
  · subst hij
    obtain rfl := Option.some_inj.1
      ((Machine.modifyOption_getElem? (m := { m with store }) ha).symm.trans hj)
    rw [(Activation.foldlM_bind?_eq_some hb).1] at hr ⊢
    exact h i a ha hr
  · rw [Machine.modifyOption_getElem?_of_ne (m := { m with store }) hij] at hj
    exact h j b hj hr

theorem runs {p : Program σ} {t : Task} {depth : Nat} {m' : Machine σ} {events : List Event}
    (h : m.Settled c options) (hruns : Runs p c t depth m events m') : m'.Settled c options :=
  fun j b hb hr => h j b (hruns.unran hb hr) hr

/-- An option that is entered runs in the state in which it was as the cycle began. -/
theorem stateIn (h : m.Settled c options) (ha : m.options[i]? = some a)
    (hr : a.ranIn c.number = false) (initial : Nat) : ∃ b, options[i]? = some b ∧
      b.stateIn c.number initial = (a.start c initial).executed := by
  obtain ⟨b, hb, hactive, hlast⟩ := h i a ha hr
  refine ⟨b, hb, ?_⟩
  rw [Activation.start_executed, Activation.stateIn, Activation.continues, Activation.continues,
    hactive, hlast]

end Machine.Settled

/-! ### What a part of a cycle enters -/

namespace Runs

variable {p : Program σ} {c : Cycle} {t : Task} {depth : Nat} {m m' : Machine σ}
  {events : List Event}

/-- **The options that are entered are those that run**: they have run in the end, and had not
before. -/
theorem mem_entered_iff (h : Runs p c t depth m events m') {j : Nat} :
    j ∈ entered events ↔ ¬ m.Ran c j ∧ m'.Ran c j := by
  induction h with
  | again | skipOption | skipBehavior | nil => simp
  | @enter i depth _ m m₁ a node _ _ _ store ha hr hn hs hacts hsur hsel hnext ih =>
    by_cases hij : i = j
    · subst hij
      have hran := (Runs.enter ha hr hn hs hacts hsur hsel hnext).targets_ran i
        (List.mem_singleton_self i)
      rw [entered_cons, Machine.ran_iff ha, hr]
      simpa using hran
    · rw [entered_cons, List.mem_cons, ih, Machine.ran_modifyOption_of_ne hij,
        Machine.ran_modifyOption_of_ne (m := { m₁ with store }) hij]
      have : j ≠ i := Ne.symm hij
      simp only [this, false_or]
      rfl
  | activate ha _ _ _ hb _ ih => rw [ih, Machine.ran_bind_iff ha hb]
  | behave | assign => simp [Machine.Ran]
  | @cons _ _ _ _ _ _ _ _ m₁ _ _ _ h hs ih ihs =>
    rw [entered_append, List.mem_append, ih, ihs]
    constructor
    · rintro (⟨hn, hr⟩ | ⟨hn, hr⟩)
      · exact ⟨hn, hs.ran_mono hr⟩
      · exact ⟨mt h.ran_mono hn, hr⟩
    · rintro ⟨hn, hr⟩
      by_cases hmid : m₁.Ran c j
      · exact .inl ⟨hn, hmid⟩
      · exact .inr ⟨hmid, hr⟩

/-- **No option is entered twice.** -/
theorem nodup_entered (h : Runs p c t depth m events m') : (entered events).Nodup := by
  induction h with
  | again | skipOption | skipBehavior | nil | behave | assign => exact List.nodup_nil
  | @enter i _ _ m m₁ a node _ _ _ store ha _ _ _ hacts _ _ _ ih =>
    rw [entered_cons, List.nodup_cons]
    refine ⟨fun hmem => ?_, ih⟩
    exact (hacts.mem_entered_iff.1 hmem).1 (Machine.ran_start ha)
  | activate _ _ _ _ _ _ ih => exact ih
  | cons h hs ih ihs =>
    rw [entered_append, List.nodup_append]
    refine ⟨ih, ihs, ?_⟩
    rintro i hi j hj rfl
    exact (hs.mem_entered_iff.1 hj).1 (h.mem_entered_iff.1 hi).2

section Reaches

variable {options : List Activation}

theorem stateIn?_of_enter {i : Nat} {a : Activation} {node : Graph.Node} {state : Graph.State}
    (hm : m.Settled c options) (ha : m.options[i]? = some a) (hr : a.ranIn c.number = false)
    (hn : p.graph.options.at? i = some node)
    (hs : node.states.at? (a.start c node.initial).executed = some state) :
    p.graph.stateIn? options c.number i = some state := by
  obtain ⟨b, hb, hstate⟩ := hm.stateIn ha hr node.initial
  simp [Graph.stateIn?, hn, hb, hstate, hs]

/-- **What is entered can be reached** from an option that the part of the cycle is asked to
run. -/
theorem reaches_of_mem_entered (h : Runs p c t depth m events m') (hm : m.Settled c options)
    {j : Nat} (hj : j ∈ entered events) :
    ∃ i ∈ t.targets, p.graph.Reaches options c.number i j := by
  induction h with
  | again | skipOption | skipBehavior | nil | behave | assign => cases hj
  | @enter i _ _ m m₁ a node state _ _ _ ha hr hn hs _ _ _ _ ih =>
    refine ⟨i, List.mem_singleton_self i, ?_⟩
    rcases List.mem_cons.1 hj with rfl | hj
    · exact .refl
    · obtain ⟨k, hk, hreach⟩ := ih (hm.start ha) hj
      exact .head ⟨state, stateIn?_of_enter hm ha hr hn hs, hk⟩ hreach
  | activate ha _ _ _ hb _ ih =>
    obtain ⟨k, hk, hreach⟩ := ih (hm.bind ha hb) hj
    obtain rfl := List.mem_singleton.1 hk
    exact ⟨k, by simp [Task.targets, Action.option?], hreach⟩
  | @cons _ _ _ _ _ a as _ _ _ _ _ h _ ih ihs =>
    rw [entered_append, List.mem_append] at hj
    rcases hj with hj | hj
    · obtain ⟨i, hi, hreach⟩ := ih hm hj
      refine ⟨i, ?_, hreach⟩
      exact List.mem_filterMap.2 ⟨a, by simp, by simpa [Task.targets] using hi⟩
    · obtain ⟨i, hi, hreach⟩ := ihs (hm.runs h) hj
      obtain ⟨b, hb, hbi⟩ := List.mem_filterMap.1 hi
      exact ⟨i, List.mem_filterMap.2 ⟨b, List.mem_cons_of_mem _ hb, hbi⟩, hreach⟩

/-- An option that is entered runs in the state in which it was as the cycle began. -/
theorem state_of_entered (h : Runs p c t depth m events m') (hm : m.Settled c options)
    {n i k : Nat} (hi : ⟨n, .entered i k⟩ ∈ events) : ∃ node b,
      p.graph.options.at? i = some node ∧ options[i]? = some b ∧
        k = b.stateIn c.number node.initial := by
  induction h with
  | again | skipOption | skipBehavior | nil => cases hi
  | behave | assign => simp at hi
  | @enter j _ _ m m₁ a node state _ _ _ ha hr hn hs _ _ _ _ ih =>
    rcases List.mem_cons.1 hi with hi | hi
    · simp only [Event.mk.injEq, Happening.entered.injEq] at hi
      obtain ⟨-, rfl, rfl⟩ := hi
      obtain ⟨b, hb, hstate⟩ := hm.stateIn ha hr node.initial
      exact ⟨node, b, hn, hb, hstate.symm⟩
    · exact ih (hm.start ha) hi
  | activate ha _ _ _ hb _ ih => exact ih (hm.bind ha hb) hi
  | cons h _ ih ihs =>
    rcases List.mem_append.1 hi with hi | hi
    · exact ih hm hi
    · exact ihs (hm.runs h) hi

/-- **What is activated from an entered state has run in the end.** -/
theorem ran_of_activates (h : Runs p c t depth m events m') (hm : m.Settled c options)
    {i j : Nat} (hi : i ∈ entered events) (hij : p.graph.Activates options c.number i j) :
    m'.Ran c j := by
  induction h with
  | again | skipOption | skipBehavior | nil | behave | assign => cases hi
  | @enter k _ _ m m₁ a node state _ _ store ha hr hn hs hacts _ _ _ ih =>
    have hran : m₁.Ran c j := by
      rcases List.mem_cons.1 hi with rfl | hi
      · obtain ⟨s, hs', hj⟩ := hij
        obtain rfl := Option.some_inj.1 ((stateIn?_of_enter hm ha hr hn hs).symm.trans hs')
        exact hacts.targets_ran j hj
      · exact ih (hm.start ha) hi
    by_cases hkj : k = j
    · subst hkj
      have hk := hacts.keeps_start ha
      exact ⟨_, Machine.modifyOption_getElem? (m := { m₁ with store }) hk, by simp⟩
    · exact (Machine.ran_modifyOption_of_ne (m := { m₁ with store }) hkj).2 hran
  | activate ha _ _ _ hb _ ih => exact ih (hm.bind ha hb) hi
  | cons h hs ih ihs =>
    rw [entered_append, List.mem_append] at hi
    rcases hi with hi | hi
    · exact hs.ran_mono (ih hm hi)
    · exact ihs (hm.runs h) hi

end Reaches

end Runs

/-! ### Which basic behaviors run -/

/-- The basic behaviors that the actions of a part of a cycle name. -/
def Task.behaviors : Task → List Nat
  | .option _ => []
  | .action _ _ _ a => a.behavior?.toList
  | .actions _ _ _ _ as => as.filterMap Action.behavior?

/-- A basic behavior has run in a cycle. -/
def Machine.Behaved (m : Machine σ) (c : Cycle) (b : Nat) : Prop :=
  m.behaviors[b]? = some (some c.number)

namespace Runs

variable {p : Program σ} {c : Cycle} {t : Task} {depth : Nat} {m m' : Machine σ}
  {events : List Event} {options : List Activation} {b : Nat}

theorem behaved_mono (h : Runs p c t depth m events m') (hb : m.Behaved c b) :
    m'.Behaved c b := by
  induction h with
  | again | skipOption | skipBehavior | nil | assign => exact hb
  | enter _ _ _ _ _ _ _ _ ih => exact ih hb
  | activate _ _ _ _ _ _ ih => exact ih hb
  | @behave _ _ target _ _ _ m =>
    unfold Machine.Behaved at hb ⊢
    by_cases htb : target = b
    · subst htb
      rw [List.getElem?_set_self (List.getElem?_eq_some_iff.1 hb).1]
    · rwa [List.getElem?_set_ne htb]
  | cons _ _ ih ihs => exact ihs (ih hb)

/-- **The basic behaviors that the events tell are those that run.** -/
theorem mem_behaved_iff (h : Runs p c t depth m events m') :
    b ∈ behaved events ↔ ¬ m.Behaved c b ∧ m'.Behaved c b := by
  induction h with
  | again | skipOption | skipBehavior | nil => simp
  | enter _ _ _ _ _ _ _ _ ih => exact ih
  | activate _ _ _ _ _ _ ih => exact ih
  | assign => simp [Machine.Behaved]
  | @behave _ _ target _ _ _ m last _ _ _ _ hl hr =>
    unfold Machine.Behaved
    rw [behaved_behaved, List.mem_singleton]
    by_cases htb : target = b
    · subst htb
      simp only [true_iff]
      refine ⟨?_, List.getElem?_set_self (List.getElem?_eq_some_iff.1 hl).1⟩
      rw [hl]
      exact fun e => hr (Option.some_inj.1 e)
    · rw [List.getElem?_set_ne htb]
      have : b ≠ target := Ne.symm htb
      simp [this]
  | @cons _ _ _ _ _ _ _ _ m₁ _ _ _ h hs ih ihs =>
    rw [behaved_append, List.mem_append, ih, ihs]
    constructor
    · rintro (⟨hn, hr⟩ | ⟨hn, hr⟩)
      · exact ⟨hn, hs.behaved_mono hr⟩
      · exact ⟨mt h.behaved_mono hn, hr⟩
    · rintro ⟨hn, hr⟩
      by_cases hmid : m₁.Behaved c b
      · exact .inl ⟨hn, hmid⟩
      · exact .inr ⟨hmid, hr⟩

/-- **No basic behavior runs twice.** -/
theorem nodup_behaved (h : Runs p c t depth m events m') : (behaved events).Nodup := by
  induction h with
  | again | skipOption | skipBehavior | nil | assign => exact List.nodup_nil
  | behave => exact List.nodup_singleton _
  | enter _ _ _ _ _ _ _ _ ih => exact ih
  | activate _ _ _ _ _ _ ih => exact ih
  | cons h hs ih ihs =>
    rw [behaved_append, List.nodup_append]
    refine ⟨ih, ihs, ?_⟩
    rintro i hi j hj rfl
    exact (hs.mem_behaved_iff.1 hj).1 (h.mem_behaved_iff.1 hi).2

/-- The basic behaviors that a part of a cycle names have run at its end. -/
theorem behaviors_behaved (h : Runs p c t depth m events m') :
    ∀ b ∈ t.behaviors, m'.Behaved c b := by
  induction h with
  | again | enter | skipOption | activate | assign | nil => simp [Task.behaviors, Action.behavior?]
  | skipBehavior hl =>
    intro b hb
    obtain rfl : b = _ := by simpa [Task.behaviors, Action.behavior?] using hb
    exact hl
  | behave hl =>
    intro b hb
    obtain rfl : b = _ := by simpa [Task.behaviors, Action.behavior?] using hb
    exact List.getElem?_set_self (List.getElem?_eq_some_iff.1 hl).1
  | cons h hs ih ihs =>
    intro b hb
    rw [Task.behaviors, List.filterMap_cons] at hb
    split at hb
    · exact ihs b hb
    · next target htarget =>
      rcases List.mem_cons.1 hb with rfl | hb
      · exact hs.behaved_mono (ih _ (by simp [Task.behaviors, htarget]))
      · exact ihs b hb

/-- The basic behaviors of an entered state have run in the end. -/
theorem behaved_of_entered (h : Runs p c t depth m events m') (hm : m.Settled c options) {i : Nat}
    {s : Graph.State} (hi : i ∈ entered events)
    (hs : p.graph.stateIn? options c.number i = some s) (hb : b ∈ s.behaviors) :
    m'.Behaved c b := by
  induction h with
  | again | skipOption | skipBehavior | nil | behave | assign => cases hi
  | enter ha hr hn hstate hacts _ _ _ ih =>
    rcases List.mem_cons.1 hi with rfl | hi
    · obtain rfl := Option.some_inj.1 ((stateIn?_of_enter hm ha hr hn hstate).symm.trans hs)
      exact hacts.behaviors_behaved b hb
    · exact ih (hm.start ha) hi
  | activate ha _ _ _ hbound _ ih => exact ih (hm.bind ha hbound) hi
  | cons h hs ih ihs =>
    rw [entered_append, List.mem_append] at hi
    rcases hi with hi | hi
    · exact hs.behaved_mono (ih hm hi)
    · exact ihs (hm.runs h) hi

/-- A basic behavior that runs is named by the part of the cycle itself or by an entered state. -/
theorem named_of_mem_behaved (h : Runs p c t depth m events m') (hm : m.Settled c options)
    (hb : b ∈ behaved events) : b ∈ t.behaviors ∨ ∃ i ∈ entered events, ∃ s,
      p.graph.stateIn? options c.number i = some s ∧ b ∈ s.behaviors := by
  induction h with
  | again | skipOption | skipBehavior | nil | assign => cases hb
  | behave =>
    obtain rfl := List.mem_singleton.1 hb
    exact .inl (by simp [Task.behaviors, Action.behavior?])
  | @enter i _ _ m m₁ a node state _ _ _ ha hr hn hs _ _ _ _ ih =>
    refine .inr ?_
    rcases ih (hm.start ha) hb with hb | ⟨j, hj, hs'⟩
    · exact ⟨i, by simp, state, stateIn?_of_enter hm ha hr hn hs, hb⟩
    · exact ⟨j, List.mem_cons_of_mem _ hj, hs'⟩
  | activate ha _ _ _ hbound _ ih =>
    rcases ih (hm.bind ha hbound) hb with hb | h
    · cases hb
    · exact .inr h
  | @cons _ _ _ _ _ a as _ _ _ _ _ h _ ih ihs =>
    rw [behaved_append, List.mem_append] at hb
    rcases hb with hb | hb
    · rcases ih hm hb with hb | ⟨i, hi, hs⟩
      · exact .inl (List.mem_filterMap.2 ⟨a, by simp, by simpa [Task.behaviors] using hb⟩)
      · exact .inr ⟨i, by simp [hi], hs⟩
    · rcases ihs (hm.runs h) hb with hb | ⟨i, hi, hs⟩
      · obtain ⟨a', ha', hab⟩ := List.mem_filterMap.1 hb
        exact .inl (List.mem_filterMap.2 ⟨a', List.mem_cons_of_mem _ ha', hab⟩)
      · exact .inr ⟨i, by simp [hi], hs⟩

/-- A basic behavior that has not run is not touched. -/
theorem unbehaved (h : Runs p c t depth m events m') {last : Option Nat}
    (hb : m'.behaviors[b]? = some last) (hl : last ≠ some c.number) :
    m.behaviors[b]? = some last := by
  induction h with
  | again | skipOption | skipBehavior | nil | assign => exact hb
  | @behave _ _ target _ _ _ m =>
    by_cases htb : target = b
    · subst htb
      obtain ⟨hlt, -⟩ := List.getElem?_eq_some_iff.1 hb
      rw [List.length_set] at hlt
      rw [List.getElem?_set_self hlt] at hb
      exact absurd (Option.some_inj.1 hb).symm hl
    · rwa [List.getElem?_set_ne htb] at hb
  | enter _ _ _ _ _ _ _ _ ih => exact ih hb
  | activate _ _ _ _ _ _ ih => exact ih hb
  | cons _ _ ih ihs => exact ih (ihs hb)

end Runs

/-! ### What a whole cycle runs -/

/-- **What runs is what can be reached**: the events of a cycle enter exactly the options that can
be reached from the root, each once and in the state in which it is as the cycle begins, and run
exactly the basic behaviors that these states name, each once. -/
structure RunsReachable (g : Graph) (options : List Activation) (cycle root : Nat)
    (events : List Event) : Prop where
  entersOnce : (entered events).Nodup
  enters : ∀ i, i ∈ entered events ↔ g.Reaches options cycle root i
  states : ∀ n i k, ⟨n, .entered i k⟩ ∈ events → ∃ node a, g.options.at? i = some node ∧
    options[i]? = some a ∧ k = a.stateIn cycle node.initial
  behavesOnce : (behaved events).Nodup
  behaves : ∀ b, b ∈ behaved events ↔ ∃ i s, g.Reaches options cycle root i ∧
    g.stateIn? options cycle i = some s ∧ b ∈ s.behaviors

/-- A cycle that begins with nothing run runs what can be reached from the root. -/
theorem Runs.runsReachable {p : Program σ} {c : Cycle} {root depth : Nat} {m m' : Machine σ}
    {events : List Event} (h : Runs p c (.option root) depth m events m')
    (hoptions : ∀ i, ¬ m.Ran c i) (hbehaviors : ∀ b, ¬ m.Behaved c b) :
    RunsReachable p.graph m.options c.number root events := by
  have hm := Machine.Settled.self (c := c) m
  have hentered : ∀ i, i ∈ entered events ↔ p.graph.Reaches m.options c.number root i := by
    intro i
    constructor
    · intro hi
      obtain ⟨j, hj, hreach⟩ := h.reaches_of_mem_entered hm hi
      obtain rfl := List.mem_singleton.1 hj
      exact hreach
    · intro hreach
      induction hreach with
      | refl =>
        exact h.mem_entered_iff.2 ⟨hoptions root, h.targets_ran root (List.mem_singleton_self root)⟩
      | tail _ hij ih => exact h.mem_entered_iff.2 ⟨hoptions _, h.ran_of_activates hm ih hij⟩
  refine ⟨h.nodup_entered, hentered, fun _ _ _ => h.state_of_entered hm, h.nodup_behaved,
    fun b => ⟨fun hb => ?_, ?_⟩⟩
  · rcases h.named_of_mem_behaved hm hb with hb | ⟨i, hi, s, hs, hb⟩
    · cases hb
    · exact ⟨i, s, (hentered i).1 hi, hs, hb⟩
  · rintro ⟨i, s, hreach, hs, hb⟩
    exact h.mem_behaved_iff.2
      ⟨hbehaviors b, h.behaved_of_entered hm ((hentered i).2 hreach) hs hb⟩

end BehaviorEngine
