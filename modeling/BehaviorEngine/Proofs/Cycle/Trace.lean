import BehaviorEngine.Proofs.Cycle.Reach

/-!
The trace of a cycle: all of its moments in their order. Events tell what of a cycle can be seen
from outside. A trace also tells in which surroundings expressions are evaluated, which states
decision trees select, and which basic behaviors are asked to run although they ran already. What
the trace tells of an option is what the option keeps when the cycle ends.
-/

namespace BehaviorEngine

variable {σ : Type}

/-! ### Moments -/

/-- A moment of a cycle. -/
inductive Moment (σ : Type) where
  /-- An option starts to run in one of its states. It has been active for `time` and the state for
  `stateTime`. -/
  | enters (depth option state time stateTime : Nat)
  /-- An option evaluates an action or the decision tree at a path. -/
  | evaluates (option : Nat) (path : Path) (surroundings : Surroundings σ) (machine : Machine σ)
  /-- A basic behavior is asked to run. -/
  | requests (depth behavior : Nat)
  /-- A basic behavior runs, as it has been asked to for the first time in the cycle. -/
  | behaves (depth behavior : Nat)
  | assigns (depth : Nat) {d : Domain} (symbol : Nat) (expression : Expr d) (value : d.Value)
  /-- The decision tree of an option selects a state. -/
  | selects (option state : Nat)

/-- The event that a moment is, seen from outside. -/
def Moment.event? : Moment σ → Option Event
  | .enters depth i k _ _ => some ⟨depth, .entered i k⟩
  | .evaluates .. => none
  | .requests .. => none
  | .behaves depth b => some ⟨depth, .behaved b⟩
  | .assigns depth k _ x => some ⟨depth, .assigned k x⟩
  | .selects .. => none

/-- The state in which an option starts to run at a moment. -/
def Moment.entered? (i : Nat) : Moment σ → Option Nat
  | .enters _ j k _ _ => if j = i then some k else none
  | _ => none

/-- The state that an option selects at a moment. -/
def Moment.selected? (i : Nat) : Moment σ → Option Nat
  | .selects j k => if j = i then some k else none
  | _ => none

/-- **The trace of a part of a cycle**, which takes a machine to another one. -/
inductive Traces (p : Program σ) (c : Cycle) :
    Task → (depth : Nat) → Machine σ → List (Moment σ) → Machine σ → Prop
  | again {i depth : Nat} {m : Machine σ} {a : Activation} (ha : m.options[i]? = some a)
      (hr : a.ranIn c.number = true) : Traces p c (.option i) depth m [] m
  | enter {i depth k next time : Nat} {m m₁ : Machine σ} {a b : Activation} {node : Graph.Node}
      {state : Graph.State} {trace : List (Moment σ)} {s : Surroundings σ} {store : Store σ}
      (ha : m.options[i]? = some a) (hr : a.ranIn c.number = false)
      (hn : p.graph.options.at? i = some node) (hb : b = a.start c node.initial)
      (hk : k = b.executed) (hs : node.states.at? k = some state)
      (ht : b.stateTime? k = some time)
      (hacts : Traces p c (.actions i state [k, i] 0 state.actions) (depth + 1)
        (m.modifyOption i fun a => a.start c node.initial) trace m₁)
      (hsur : Run.surroundings p c i state m₁ = some (s, m₁))
      (hsel : state.decision.select s [state.actions.length, k, i] m₁.store = some (next, store))
      (hnext : next < node.states.size) :
      Traces p c (.option i) depth m
        (.enters depth i k b.elapsed time ::
          (trace ++ [.evaluates i [state.actions.length, k, i] s m₁, .selects i next]))
        ({ m₁ with store }.modifyOption i fun a => a.finish c next)
  | skipOption {i depth target : Nat} {state : Graph.State} {site : Path} {bindings : List Binding}
      {m : Machine σ} {a : Activation} (ha : m.options[target]? = some a)
      (hr : a.ranIn c.number = true) :
      Traces p c (.action i state site (.activate target bindings)) depth m [] m
  | activate {i depth target : Nat} {state : Graph.State} {site : Path} {bindings : List Binding}
      {m m' : Machine σ} {a bound : Activation} {s : Surroundings σ} {arguments : List Argument}
      {store : Store σ} {trace : List (Moment σ)} (ha : m.options[target]? = some a)
      (hr : a.ranIn c.number = false) (hsur : Run.surroundings p c i state m = some (s, m))
      (hargs : Run.argumentsAt s site bindings m.store = some (arguments, store))
      (hb : arguments.foldlM Activation.bind? a = some bound)
      (h : Traces p c (.option target) depth ({ m with store }.modifyOption target fun _ => bound)
        trace m') :
      Traces p c (.action i state site (.activate target bindings)) depth m
        (.evaluates i site s m :: trace) m'
  | skipBehavior {i depth target : Nat} {state : Graph.State} {site : Path}
      {bindings : List Binding} {m : Machine σ}
      (hl : m.behaviors[target]? = some (some c.number)) :
      Traces p c (.action i state site (.behave target bindings)) depth m
        [.requests depth target] m
  | behave {i depth target : Nat} {state : Graph.State} {site : Path} {bindings : List Binding}
      {m : Machine σ} {last : Option Nat} {behavior : BasicBehavior σ} {s : Surroundings σ}
      {arguments : List Argument} {store : Store σ} (hl : m.behaviors[target]? = some last)
      (hr : last ≠ some c.number) (hb : p.environment.behaviors.at? target = some behavior)
      (hsur : Run.surroundings p c i state m = some (s, m))
      (hargs : Binding.values s site (Evaluate.writeSlot behavior.parameters) 0 bindings m.store =
        some (arguments, store)) :
      Traces p c (.action i state site (.behave target bindings)) depth m
        [.requests depth target, .evaluates i site s m, .behaves depth target]
        { m with
          store := ⟨behavior.call (store.memory.isChange site arguments) store.world,
            store.memory.remember site arguments⟩
          behaviors := m.behaviors.set target (some c.number) }
  | assign {i depth k : Nat} {d : Domain} {expression : Expr d} {state : Graph.State} {site : Path}
      {m : Machine σ} {s : Surroundings σ} {x : d.Value} {store : Store σ}
      {symbol : OutputSymbol σ d} (hsur : Run.surroundings p c i state m = some (s, m))
      (hx : expression.value s site m.store = some (x, store))
      (hk : (p.environment.symbols.outputs.get d).at? k = some symbol) :
      Traces p c (.action i state site (.assign k expression)) depth m
        [.evaluates i site s m, .assigns depth k expression x]
        { m with
          store := ⟨symbol.binding.write x store.world, store.memory⟩
          assigned := m.assigned.modify d (k :: ·) }
  | nil {i depth k : Nat} {state : Graph.State} {path : Path} {m : Machine σ} :
      Traces p c (.actions i state path k []) depth m [] m
  | cons {i depth k : Nat} {state : Graph.State} {path : Path} {a : Action} {as : List Action}
      {m m₁ m' : Machine σ} {trace trace' : List (Moment σ)}
      (h : Traces p c (.action i state (k :: path) a) depth m trace m₁)
      (hs : Traces p c (.actions i state path (k + 1) as) depth m₁ trace' m') :
      Traces p c (.actions i state path k (a :: as)) depth m (trace ++ trace') m'

section Traces

variable {p : Program σ} {c : Cycle} {t : Task} {depth : Nat} {m m' : Machine σ}
  {trace : List (Moment σ)}

/-- A trace follows the rules of cycles, and its events are those of the cycle. -/
theorem Traces.runs (h : Traces p c t depth m trace m') :
    Runs p c t depth m (trace.filterMap Moment.event?) m' := by
  induction h with
  | again ha hr => exact .again ha hr
  | enter ha hr hn hb hk hs _ _ hsur hsel hnext ih =>
    subst hb hk
    simpa [Moment.event?, List.filterMap_cons] using Runs.enter ha hr hn hs ih hsur hsel hnext
  | skipOption ha hr => exact .skipOption ha hr
  | activate ha hr hsur hargs hb _ ih => exact .activate ha hr hsur hargs hb ih
  | skipBehavior hl => exact .skipBehavior hl
  | behave hl hr hb hsur hargs => exact .behave hl hr hb hsur hargs
  | assign hsur hx hk => exact .assign hsur hx hk
  | nil => exact .nil
  | cons _ _ ih ihs =>
    rw [List.filterMap_append]
    exact .cons ih ihs

/-- **Every part of a cycle has a trace.** -/
theorem Runs.exists_trace {events : List Event} (h : Runs p c t depth m events m') :
    ∃ trace, Traces p c t depth m trace m' := by
  induction h with
  | again ha hr => exact ⟨_, .again ha hr⟩
  | @enter i _ _ m m₁ a node _ _ _ _ ha hr hn hs hacts hsur hsel hnext ih =>
    obtain ⟨trace, htrace⟩ := ih
    -- The time of the state can be told because it can be when the decision tree is evaluated.
    obtain ⟨-, b, time, hb, ht, -⟩ := Run.surroundings_eq_some.1 hsur
    obtain rfl := Option.some_inj.1 ((hacts.keeps_start ha).symm.trans hb)
    exact ⟨_, .enter ha hr hn rfl rfl hs ht htrace hsur hsel hnext⟩
  | skipOption ha hr => exact ⟨_, .skipOption ha hr⟩
  | activate ha hr hsur hargs hb _ ih =>
    obtain ⟨trace, htrace⟩ := ih
    exact ⟨_, .activate ha hr hsur hargs hb htrace⟩
  | skipBehavior hl => exact ⟨_, .skipBehavior hl⟩
  | behave hl hr hb hsur hargs => exact ⟨_, .behave hl hr hb hsur hargs⟩
  | assign hsur hx hk => exact ⟨_, .assign hsur hx hk⟩
  | nil => exact ⟨_, .nil⟩
  | cons _ _ ih ihs =>
    obtain ⟨trace, htrace⟩ := ih
    obtain ⟨trace', htrace'⟩ := ihs
    exact ⟨_, .cons htrace htrace'⟩

/-- The options that a trace enters are those that run. -/
theorem Traces.enters_iff (h : Traces p c t depth m trace m') {i : Nat} :
    (∃ n k time stateTime, .enters n i k time stateTime ∈ trace) ↔ ¬ m.Ran c i ∧ m'.Ran c i := by
  rw [← h.runs.mem_entered_iff, entered, List.mem_filterMap]
  constructor
  · rintro ⟨n, k, time, stateTime, hx⟩
    exact ⟨⟨n, .entered i k⟩, List.mem_filterMap.2 ⟨_, hx, rfl⟩, rfl⟩
  · rintro ⟨e, he, hi⟩
    obtain ⟨x, hx, hxe⟩ := List.mem_filterMap.1 he
    cases x with
    | enters n j k time stateTime =>
      cases hxe
      cases hi
      exact ⟨n, k, time, stateTime, hx⟩
    | evaluates | requests | selects => cases hxe
    | behaves | assigns =>
      cases hxe
      cases hi

/-! ### What a trace tells -/

/-- The option that a moment tells something about. -/
def Moment.option? : Moment σ → Option Nat
  | .enters _ i _ _ _ => some i
  | .evaluates i _ _ _ => some i
  | .selects i _ => some i
  | _ => none

/-- What a moment tells about its option is what the option keeps: the state that ran, the times for
which option and state have been active, and the state that was selected. -/
def Moment.Tells (a : Activation) : Moment σ → Prop
  | .enters _ _ k time stateTime =>
    a.executed = k ∧ a.elapsed = time ∧ a.stateTime? k = some stateTime
  | .evaluates _ _ s _ => a.elapsed = s.optionTime ∧ a.stateTime? a.executed = some s.stateTime
  | .selects _ k => a.active = k
  | _ => True

/-- The option of a moment has run in a cycle, and keeps what the moment tells. -/
def Moment.Agrees (c : Cycle) (options : List Activation) (x : Moment σ) : Prop :=
  ∀ i ∈ x.option?, ∃ a, options[i]? = some a ∧ a.ranIn c.number = true ∧ x.Tells a

/-- The option whose action or actions are run. -/
def Task.owner? : Task → Option Nat
  | .option _ => none
  | .action i _ _ _ => some i
  | .actions i _ _ _ _ => some i

theorem Moment.Agrees.mono {options options' : List Activation} {x : Moment σ}
    (h : x.Agrees c options) (hkeep : ∀ (i : Nat) (a : Activation), options[i]? = some a →
      a.ranIn c.number = true → options'[i]? = some a) : x.Agrees c options' := by
  intro i hi
  obtain ⟨a, ha, hr, htells⟩ := h i hi
  exact ⟨a, hkeep i a ha hr, hr, htells⟩

/-- What is evaluated is told by the state of the option at that time. -/
theorem Moment.agrees_evaluates {i : Nat} {path : Path} {state : Graph.State} {s : Surroundings σ}
    (hran : m.Ran c i) (hsur : Run.surroundings p c i state m = some (s, m)) :
    (Moment.evaluates i path s m).Agrees c m.options := by
  rintro _ ⟨⟩
  obtain ⟨a, ha, hr⟩ := hran
  obtain ⟨-, a', time, ha', ht, rfl⟩ := Run.surroundings_eq_some.1 hsur
  obtain rfl := Option.some_inj.1 (ha.symm.trans ha')
  exact ⟨a, ha, hr, rfl, ht⟩

/-- Only an option that has not run selects a state. -/
theorem Traces.not_ran_of_selects (h : Traces p c t depth m trace m') {i k : Nat}
    (hi : .selects i k ∈ trace) : ¬ m.Ran c i := by
  induction h with
  | again | skipOption | nil => cases hi
  | skipBehavior | behave | assign => simp at hi
  | @enter j _ _ _ _ m _ a _ _ _ trace _ _ ha hr _ _ _ _ _ _ _ _ _ ih =>
    by_cases hij : i = j
    · subst hij
      exact Machine.not_ran ha hr
    · rw [← Machine.ran_modifyOption_of_ne (Ne.symm hij)]
      exact ih (by simpa [hij] using hi)
  | activate ha _ _ _ hb _ ih =>
    rw [← Machine.ran_bind_iff ha hb]
    exact ih (by simpa using hi)
  | cons h _ ih ihs =>
    rcases List.mem_append.1 hi with hi | hi
    · exact ih hi
    · exact mt h.runs.ran_mono (ihs hi)

end Traces

/-! ### Start and end of a run -/

namespace Activation

variable {a : Activation} {c : Cycle} {i k : Nat}

@[simp] theorem start_lastCycle : (a.start c k).lastCycle = some c.number := by
  unfold start
  split <;> rfl

@[simp] theorem finish_executed : (a.finish c k).executed = a.executed := by
  unfold finish
  split <;> rfl

@[simp] theorem finish_elapsed : (a.finish c k).elapsed = a.elapsed := by
  unfold finish
  split <;> rfl

@[simp] theorem finish_since : (a.finish c k).since = a.since := by
  unfold finish
  split <;> rfl

@[simp] theorem finish_lastCycle : (a.finish c k).lastCycle = a.lastCycle := by
  unfold finish
  split <;> rfl

/-- After a run that started in the active state, the selected state is the active one. -/
theorem finish_active (h : a.active = a.executed) : (a.finish c k).active = k := by
  unfold finish
  split
  · next hk => rw [h, hk]
  · rfl

/-- Only the clock of a state that is entered starts over. -/
theorem finish_clocks {j : Nat} (h : j = k → k = a.executed) :
    (a.finish c k).clocks[j]? = a.clocks[j]? := by
  unfold finish switch
  split
  · rfl
  · next hk =>
    have hkj : k ≠ j := fun e => hk (h e.symm)
    simp [hkj]

/-- The state that ran keeps its time. -/
@[simp] theorem finish_stateTime? :
    (a.finish c k).stateTime? a.executed = a.stateTime? a.executed := by
  rw [stateTime?, stateTime?, finish_clocks fun h => h.symm]

end Activation

section Traces

variable {p : Program σ} {c : Cycle} {t : Task} {depth : Nat} {m m' : Machine σ}
  {trace : List (Moment σ)}

/-- What a moment tells before the end of a run is still told at the end, but for the selection. -/
theorem Moment.Tells.finish {a : Activation} {x : Moment σ} {k : Nat} (h : x.Tells a)
    (hx : ∀ i j, x ≠ .selects i j) : x.Tells (a.finish c k) := by
  cases x with
  | enters _ _ _ _ _ =>
    obtain ⟨rfl, htime, hstate⟩ := h
    exact ⟨by simp, by simpa using htime, by simpa using hstate⟩
  | evaluates _ _ _ _ =>
    obtain ⟨htime, hstate⟩ := h
    exact ⟨by simpa using htime, by simpa using hstate⟩
  | selects i j => exact absurd rfl (hx i j)
  | requests | behaves | assigns => trivial

/-- Up to the selection, moments are about the option before it finishes its run. -/
theorem Moment.Agrees.finish {x : Moment σ} {i next : Nat} {store : Store σ}
    (h : x.Agrees c m.options) (hx : ∀ k, x ≠ .selects i k) :
    x.Agrees c ({ m with store }.modifyOption i fun a => a.finish c next).options := by
  intro j hj
  obtain ⟨a, ha, hr, htells⟩ := h j hj
  by_cases hij : i = j
  · subst hij
    refine ⟨_, Machine.modifyOption_getElem? (m := { m with store }) ha, by simpa using hr,
      htells.finish fun j' k e => ?_⟩
    subst e
    cases hj
    exact hx k rfl
  · have hne := Machine.modifyOption_getElem?_of_ne (m := { m with store })
      (f := fun a => a.finish c next) hij
    exact ⟨a, hne.trans ha, hr, htells⟩

/-- **What a trace tells is what options keep.** -/
theorem Traces.agrees (h : Traces p c t depth m trace m') (ho : ∀ i ∈ t.owner?, m.Ran c i) :
    ∀ x ∈ trace, x.Agrees c m'.options := by
  induction h with
  | again | skipOption | nil => nofun
  | skipBehavior =>
    intro x hx
    obtain rfl := List.mem_singleton.1 hx
    nofun
  | @enter i depth _ next _ m m₁ a _ node _ trace s store ha hr hn hb hk hs ht hacts hsur _ _ ih =>
    subst hb hk
    have hran : (m.modifyOption i fun a => a.start c node.initial).Ran c i := Machine.ran_start ha
    have hend := hacts.runs.keeps_start ha
    have hfinish := Machine.modifyOption_getElem? (m := { m₁ with store })
      (f := fun a => a.finish c next) hend
    intro x hx
    simp only [List.mem_cons, List.mem_append, List.not_mem_nil, or_false] at hx
    rcases hx with rfl | hx | rfl | rfl
    · rintro _ ⟨⟩
      exact ⟨_, hfinish, by simp, by simp, by simp, by simpa using ht⟩
    · have hx' : ∀ k, x ≠ .selects i k := by
        rintro k rfl
        exact hacts.not_ran_of_selects hx hran
      refine (ih ?_ x hx).finish hx'
      rintro _ ⟨⟩
      exact hran
    · exact (Moment.agrees_evaluates (hacts.runs.ran_mono hran) hsur).finish nofun
    · rintro _ ⟨⟩
      exact ⟨_, hfinish, by simp, Activation.finish_active Activation.start_active⟩
  | @activate i _ target _ _ _ m _ _ _ _ _ _ _ ha hr hsur hargs hb h ih =>
    intro x hx
    rcases List.mem_cons.1 hx with rfl | hx
    · refine (Moment.agrees_evaluates (ho i rfl) hsur).mono fun j b hj hrj => ?_
      exact (Runs.activate ha hr hsur hargs hb h.runs).untouched hj hrj
    · exact ih nofun x hx
  | @behave i _ _ _ _ _ _ _ _ _ _ _ _ _ _ hsur =>
    intro x hx
    simp only [List.mem_cons, List.not_mem_nil, or_false] at hx
    rcases hx with rfl | rfl | rfl
    · nofun
    · exact Moment.agrees_evaluates (ho i rfl) hsur
    · nofun
  | @assign i _ _ _ _ _ _ _ _ _ _ _ hsur =>
    intro x hx
    simp only [List.mem_cons, List.not_mem_nil, or_false] at hx
    rcases hx with rfl | rfl
    · exact Moment.agrees_evaluates (ho i rfl) hsur
    · nofun
  | cons h hs ih ihs =>
    intro x hx
    rcases List.mem_append.1 hx with hx | hx
    · exact (ih ho x hx).mono fun j b hj hrj => hs.runs.untouched hj hrj
    · exact ihs (fun i hi => h.runs.ran_mono (ho i hi)) x hx

/-- **What a cycle makes of an option that runs in it**: up to the values of its parameters, the
option starts in one of its states, and finishes with one of the targets of its decision tree. -/
structure Graph.Turns (g : Graph) (c : Cycle) (i : Nat) (node : Graph.Node) (state : Graph.State)
    (next : Nat) (a a' : Activation) : Prop where
  node_eq : g.options.at? i = some node
  state_eq : node.states.at? (a.start c node.initial).executed = some state
  next_lt : next < node.states.size
  next_mem : next ∈ state.decision.targets
  result : a' = { (a.start c node.initial).finish c next with parameters := a'.parameters }

namespace Graph.Turns

variable {g : Graph} {i next : Nat} {node : Graph.Node} {state : Graph.State} {a b a' : Activation}

theorem executed_eq (h : g.Turns c i node state next a a') :
    a'.executed = (a.start c node.initial).executed := by
  rw [h.result]
  exact Activation.finish_executed

theorem active_eq (h : g.Turns c i node state next a a') : a'.active = next := by
  rw [h.result]
  exact Activation.finish_active Activation.start_active

theorem since_eq (h : g.Turns c i node state next a a') :
    a'.since = (a.start c node.initial).since := by
  rw [h.result]
  exact Activation.finish_since

theorem elapsed_eq (h : g.Turns c i node state next a a') :
    a'.elapsed = (a.start c node.initial).elapsed := by
  rw [h.result]
  exact Activation.finish_elapsed

theorem lastCycle_eq (h : g.Turns c i node state next a a') : a'.lastCycle = some c.number := by
  rw [h.result]
  exact Activation.finish_lastCycle.trans Activation.start_lastCycle

theorem clocks_eq (h : g.Turns c i node state next a a') :
    a'.clocks = ((a.start c node.initial).finish c next).clocks := by
  rw [h.result]

/-- Values of parameters do not matter to what a cycle makes of the rest of an option. -/
theorem of_parameters (h : g.Turns c i node state next b a')
    (hb : b = { a with parameters := b.parameters }) : g.Turns c i node state next a a' := by
  have hstart : ∀ k, b.start c k = { a.start c k with parameters := b.parameters } := by
    intro k
    rw [hb]
    unfold Activation.start Activation.continues Activation.switch
    split <;> rfl
  have hfinish : (b.start c node.initial).finish c next =
      { (a.start c node.initial).finish c next with parameters := b.parameters } := by
    rw [hstart]
    unfold Activation.finish Activation.switch
    split <;> rfl
  refine ⟨h.node_eq, ?_, h.next_lt, h.next_mem, ?_⟩
  · have := h.state_eq
    rwa [hstart] at this
  · rw [h.result, hfinish]

end Graph.Turns

/-- An option that runs in a part of a cycle turns from what it was before into what it is after. -/
theorem Traces.turns (h : Traces p c t depth m trace m') {i : Nat} {a' : Activation}
    (ha' : m'.options[i]? = some a') (hr' : a'.ranIn c.number = true) (hr : ¬ m.Ran c i) :
    ∃ node state next a, m.options[i]? = some a ∧
      p.graph.Turns c i node state next a a' ∧ .selects i next ∈ trace := by
  induction h with
  | again | skipOption | nil | skipBehavior | behave | assign => exact absurd ⟨a', ha', hr'⟩ hr
  | @enter j _ _ next _ m m₁ a _ node state _ _ store ha _ hn hb hk hs _ hacts _ hsel hnext ih =>
    subst hb hk
    by_cases hji : j = i
    · subst hji
      have hend := hacts.runs.keeps_start ha
      obtain rfl := Option.some_inj.1 ((Machine.modifyOption_getElem? (m := { m₁ with store })
        (f := fun a => a.finish c next) hend).symm.trans ha')
      exact ⟨node, state, next, a, ha, ⟨hn, hs, hnext, Statement.select_mem_targets hsel, rfl⟩,
        by simp⟩
    · rw [Machine.modifyOption_getElem?_of_ne (m := { m₁ with store }) hji] at ha'
      rw [← Machine.ran_modifyOption_of_ne hji] at hr
      obtain ⟨node', state', next', b, hb, hturns, hmem⟩ := ih ha' hr
      rw [Machine.modifyOption_getElem?_of_ne hji] at hb
      exact ⟨node', state', next', b, hb, hturns, by simp [hmem]⟩
  | @activate _ _ target _ _ _ m _ a bound _ _ store _ ha _ _ _ hbound h ih =>
    obtain ⟨node, state, next, b, hb, hturns, hmem⟩ :=
      ih ha' (mt (Machine.ran_bind_iff ha hbound).1 hr)
    by_cases hti : target = i
    · subst hti
      obtain rfl := Option.some_inj.1
        ((Machine.modifyOption_getElem? (m := { m with store }) ha).symm.trans hb)
      exact ⟨node, state, next, a, ha,
        hturns.of_parameters (Activation.foldlM_bind?_eq_some hbound).1, by simp [hmem]⟩
    · rw [Machine.modifyOption_getElem?_of_ne (m := { m with store }) hti] at hb
      exact ⟨node, state, next, b, hb, hturns, by simp [hmem]⟩
  | @cons _ _ _ _ _ _ _ _ m₁ _ _ _ h hs ih ihs =>
    by_cases hmid : m₁.Ran c i
    · obtain ⟨b, hb, hrb⟩ := hmid
      obtain rfl := Option.some_inj.1 ((hs.runs.untouched hb hrb).symm.trans ha')
      obtain ⟨node, state, next, a, ha, hturns, hmem⟩ := ih hb hr
      exact ⟨node, state, next, a, ha, hturns, List.mem_append_left _ hmem⟩
    · obtain ⟨node, state, next, a, ha, hturns, hmem⟩ := ihs ha' hmid
      -- The option did not run before, so nothing has touched it yet.
      have hra : a.ranIn c.number = false := by
        rw [← Bool.not_eq_true]
        exact fun hran => hmid ⟨a, ha, hran⟩
      exact ⟨node, state, next, a, h.runs.unran ha hra, hturns, List.mem_append_right _ hmem⟩

end Traces

end BehaviorEngine
