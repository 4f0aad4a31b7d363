import BehaviorEngine.Proofs.Partial
import BehaviorEngine.Proofs.Registry

/-!
The run of a cycle as a relation. It says once what each part of a cycle can do, with the guards
under which it does so, and which events it causes. Whatever holds of every cycle is proved by
induction on this relation, in one case for each of its rules.
-/

namespace BehaviorEngine

variable {σ : Type}

/-- What can happen in a cycle. -/
inductive Happening where
  /-- An option runs, in one of its states. -/
  | entered (option state : Nat)
  | behaved (behavior : Nat)
  | assigned {d : Domain} (symbol : Nat) (value : d.Value)

/-- Something that happens, and the number of activations above it. -/
structure Event where
  depth : Nat
  happening : Happening

/-- A part of the work of a cycle. -/
inductive Task where
  | option (i : Nat)
  /-- An action of a state of the option `i`. -/
  | action (i : Nat) (state : Graph.State) (site : Path) (a : Action)
  /-- The actions of a state of the option `i` from the `k`-th on. -/
  | actions (i : Nat) (state : Graph.State) (path : Path) (k : Nat) (as : List Action)

/-- The machine with one option changed. -/
def Machine.modifyOption (m : Machine σ) (i : Nat) (f : Activation → Activation) : Machine σ :=
  { m with options := m.options.modify i f }

/-- The host after a basic behavior was run, with or without notice of changed parameters. -/
def BasicBehavior.call (b : BasicBehavior σ) (changed : Bool) (w : World σ) : World σ :=
  b.run (if changed then b.parametersChanged w else w)

/-- **What a part of a cycle does**: it takes a machine to another one and causes events. -/
inductive Runs (p : Program σ) (c : Cycle) :
    Task → (depth : Nat) → Machine σ → List Event → Machine σ → Prop
  /-- An option that ran in the cycle already does not run again. -/
  | again {i depth : Nat} {m : Machine σ} {a : Activation} (ha : m.options[i]? = some a)
      (hr : a.ranIn c.number = true) : Runs p c (.option i) depth m [] m
  | enter {i depth next : Nat} {m m₁ : Machine σ} {a : Activation} {node : Graph.Node}
      {state : Graph.State} {events : List Event} {s : Surroundings σ} {store : Store σ}
      (ha : m.options[i]? = some a) (hr : a.ranIn c.number = false)
      (hn : p.graph.options.at? i = some node)
      (hs : node.states.at? (a.start c node.initial).executed = some state)
      (hacts : Runs p c
        (.actions i state [(a.start c node.initial).executed, i] 0 state.actions) (depth + 1)
        (m.modifyOption i fun a => a.start c node.initial) events m₁)
      (hsur : Run.surroundings p c i state m₁ = some (s, m₁))
      (hsel : state.decision.select s
        [state.actions.length, (a.start c node.initial).executed, i] m₁.store = some (next, store))
      (hnext : next < node.states.size) :
      Runs p c (.option i) depth m
        (⟨depth, .entered i (a.start c node.initial).executed⟩ :: events)
        ({ m₁ with store }.modifyOption i fun a => a.finish c next)
  /-- The activation of an option that ran in the cycle already does nothing. -/
  | skipOption {i depth target : Nat} {state : Graph.State} {site : Path} {bindings : List Binding}
      {m : Machine σ} {a : Activation} (ha : m.options[target]? = some a)
      (hr : a.ranIn c.number = true) :
      Runs p c (.action i state site (.activate target bindings)) depth m [] m
  | activate {i depth target : Nat} {state : Graph.State} {site : Path} {bindings : List Binding}
      {m m' : Machine σ} {a bound : Activation} {s : Surroundings σ} {arguments : List Argument}
      {store : Store σ} {events : List Event} (ha : m.options[target]? = some a)
      (hr : a.ranIn c.number = false) (hsur : Run.surroundings p c i state m = some (s, m))
      (hargs : Run.argumentsAt s site bindings m.store = some (arguments, store))
      (hb : arguments.foldlM Activation.bind? a = some bound)
      (h : Runs p c (.option target) depth ({ m with store }.modifyOption target fun _ => bound)
        events m') :
      Runs p c (.action i state site (.activate target bindings)) depth m events m'
  /-- A basic behavior that ran in the cycle already does not run again. -/
  | skipBehavior {i depth target : Nat} {state : Graph.State} {site : Path}
      {bindings : List Binding} {m : Machine σ}
      (hl : m.behaviors[target]? = some (some c.number)) :
      Runs p c (.action i state site (.behave target bindings)) depth m [] m
  | behave {i depth target : Nat} {state : Graph.State} {site : Path} {bindings : List Binding}
      {m : Machine σ} {last : Option Nat} {behavior : BasicBehavior σ} {s : Surroundings σ}
      {arguments : List Argument} {store : Store σ} (hl : m.behaviors[target]? = some last)
      (hr : last ≠ some c.number) (hb : p.environment.behaviors.at? target = some behavior)
      (hsur : Run.surroundings p c i state m = some (s, m))
      (hargs : Binding.values s site (Evaluate.writeSlot behavior.parameters) 0 bindings m.store =
        some (arguments, store)) :
      Runs p c (.action i state site (.behave target bindings)) depth m
        [⟨depth, .behaved target⟩]
        { m with
          store := ⟨behavior.call (store.memory.isChange site arguments) store.world,
            store.memory.remember site arguments⟩
          behaviors := m.behaviors.set target (some c.number) }
  | assign {i depth k : Nat} {d : Domain} {expression : Expr d} {state : Graph.State} {site : Path}
      {m : Machine σ} {s : Surroundings σ} {x : d.Value} {store : Store σ}
      {symbol : OutputSymbol σ d} (hsur : Run.surroundings p c i state m = some (s, m))
      (hx : expression.value s site m.store = some (x, store))
      (hk : (p.environment.symbols.outputs.get d).at? k = some symbol) :
      Runs p c (.action i state site (.assign k expression)) depth m [⟨depth, .assigned k x⟩]
        { m with
          store := ⟨symbol.binding.write x store.world, store.memory⟩
          assigned := m.assigned.modify d (k :: ·) }
  | nil {i depth k : Nat} {state : Graph.State} {path : Path} {m : Machine σ} :
      Runs p c (.actions i state path k []) depth m [] m
  | cons {i depth k : Nat} {state : Graph.State} {path : Path} {a : Action} {as : List Action}
      {m m₁ m' : Machine σ} {events events' : List Event}
      (h : Runs p c (.action i state (k :: path) a) depth m events m₁)
      (hs : Runs p c (.actions i state path (k + 1) as) depth m₁ events' m') :
      Runs p c (.actions i state path k (a :: as)) depth m (events ++ events') m'

/-! ### The steps of a run -/

namespace Run

open Partial

variable {p : Program σ} {c : Cycle} {m m' : Machine σ} {α : Type}

theorem evaluate_eq_some {x : Evaluate σ α} {a : α} : Run.evaluate x m = some (a, m') ↔
    ∃ store, x m.store = some (a, store) ∧ { m with store } = m' := by
  change ((x m.store).bind fun q => some (q.1, { m with store := q.2 })) = _ ↔ _
  rw [Option.bind_eq_some_iff, Prod.exists]
  constructor
  · rintro ⟨b, store, hx, h⟩
    cases h
    exact ⟨store, hx, rfl⟩
  · rintro ⟨store, hx, rfl⟩
    exact ⟨a, store, hx, rfl⟩

theorem activation_eq_some {i : Nat} {a : Activation} :
    Run.activation i m = some (a, m') ↔ m.options[i]? = some a ∧ m = m' := by
  unfold Run.activation
  rw [bind_eq_some]
  constructor
  · rintro ⟨t, m₁, h, h'⟩
    obtain ⟨rfl, rfl⟩ := get_eq_some.1 h
    exact lift_eq_some.1 h'
  · rintro ⟨h, rfl⟩
    exact ⟨m, m, rfl, lift_eq_some.2 ⟨h, rfl⟩⟩

theorem modifyActivation_eq_some {i : Nat} {f : Activation → Activation} {u : Unit} :
    Run.modifyActivation i f m = some (u, m') ↔ m.modifyOption i f = m' := modify_eq_some

/-- What expressions read does not change the machine. -/
theorem surroundings_eq_some {i : Nat} {state : Graph.State} {s : Surroundings σ} :
    Run.surroundings p c i state m = some (s, m') ↔ m = m' ∧ ∃ a time, m.options[i]? = some a ∧
      a.stateTime? a.executed = some time ∧ s = {
        symbols := p.environment.symbols
        parameters := a.parameters
        stateTime := time
        optionTime := a.elapsed
        reachedTarget := state.activated.anyM (restsInTarget p.graph m.options c.number) } := by
  unfold Run.surroundings
  constructor
  · intro h
    obtain ⟨t, m₁, h₁, h⟩ := bind_eq_some.1 h
    obtain ⟨rfl, rfl⟩ := get_eq_some.1 h₁
    obtain ⟨a, m₂, h₂, h⟩ := bind_eq_some.1 h
    obtain ⟨ha, rfl⟩ := activation_eq_some.1 h₂
    obtain ⟨time, m₃, h₃, h⟩ := bind_eq_some.1 h
    obtain ⟨ht, rfl⟩ := lift_eq_some.1 h₃
    obtain ⟨rfl, rfl⟩ := pure_eq_some.1 h
    exact ⟨rfl, a, time, ha, ht, rfl⟩
  · rintro ⟨rfl, a, time, ha, ht, rfl⟩
    refine bind_eq_some.2 ⟨m, m, rfl, bind_eq_some.2 ⟨a, m, activation_eq_some.2 ⟨ha, rfl⟩, ?_⟩⟩
    exact bind_eq_some.2 ⟨time, m, lift_eq_some.2 ⟨ht, rfl⟩, rfl⟩

/-! ### Every run follows the rules -/

/-- The function that runs options follows the rules. -/
def Follows (p : Program σ) (c : Cycle) (runOption : Nat → Run σ Unit) : Prop :=
  ∀ i m m' depth, runOption i m = some ((), m') →
    ∃ events, Runs p c (.option i) depth m events m'

section Actions

variable {runOption : Nat → Run σ Unit} (hrun : Follows p c runOption) {i : Nat}
  {state : Graph.State} (depth : Nat)

include hrun

theorem runs_of_activate {site : Path} {target : Nat} {bindings : List Binding}
    (h : Run.action p c runOption i state site (.activate target bindings) m = some ((), m')) :
    ∃ events, Runs p c (.action i state site (.activate target bindings)) depth m events m' := by
  obtain ⟨a, m₁, h₁, h⟩ := bind_eq_some.1 h
  obtain ⟨ha, rfl⟩ := activation_eq_some.1 h₁
  by_cases hr : a.ranIn c.number
  · rw [if_pos hr] at h
    obtain ⟨-, rfl⟩ := pure_eq_some.1 h
    exact ⟨[], .skipOption ha hr⟩
  · rw [if_neg hr] at h
    obtain ⟨s, m₂, hsur, h⟩ := bind_eq_some.1 h
    obtain ⟨rfl, -⟩ := surroundings_eq_some.1 hsur
    obtain ⟨arguments, m₃, h₃, h⟩ := bind_eq_some.1 h
    obtain ⟨store, hargs, rfl⟩ := evaluate_eq_some.1 h₃
    obtain ⟨before, m₄, h₄, h⟩ := bind_eq_some.1 h
    obtain ⟨hbefore, rfl⟩ := activation_eq_some.1 h₄
    obtain rfl : a = before := Option.some_inj.1 (ha.symm.trans hbefore)
    obtain ⟨bound, m₅, h₅, h⟩ := bind_eq_some.1 h
    obtain ⟨hb, rfl⟩ := lift_eq_some.1 h₅
    obtain ⟨_, m₆, h₆, h⟩ := bind_eq_some.1 h
    obtain rfl := modifyActivation_eq_some.1 h₆
    obtain ⟨events, hevents⟩ := hrun _ _ _ depth h
    exact ⟨events, .activate ha (by simpa using hr) hsur hargs hb hevents⟩

omit hrun in
theorem runs_of_behave {site : Path} {target : Nat} {bindings : List Binding}
    (h : Run.action p c runOption i state site (.behave target bindings) m = some ((), m')) :
    ∃ events, Runs p c (.action i state site (.behave target bindings)) depth m events m' := by
  obtain ⟨t, m₁, h₁, h⟩ := bind_eq_some.1 h
  obtain ⟨rfl, rfl⟩ := get_eq_some.1 h₁
  obtain ⟨last, m₂, h₂, h⟩ := bind_eq_some.1 h
  obtain ⟨hl, rfl⟩ := lift_eq_some.1 h₂
  by_cases hr : last = some c.number
  · rw [if_pos hr] at h
    obtain ⟨-, rfl⟩ := pure_eq_some.1 h
    exact ⟨[], .skipBehavior (by rw [hl, hr])⟩
  · rw [if_neg hr] at h
    obtain ⟨behavior, m₃, h₃, h⟩ := bind_eq_some.1 h
    obtain ⟨hb, rfl⟩ := lift_eq_some.1 h₃
    obtain ⟨s, m₄, hsur, h⟩ := bind_eq_some.1 h
    obtain ⟨rfl, -⟩ := surroundings_eq_some.1 hsur
    obtain ⟨arguments, m₅, h₅, h⟩ := bind_eq_some.1 h
    obtain ⟨store, hargs, rfl⟩ := evaluate_eq_some.1 h₅
    obtain ⟨changed, m₆, h₆, h⟩ := bind_eq_some.1 h
    obtain ⟨store', hstore', rfl⟩ := evaluate_eq_some.1 h₆
    obtain ⟨rfl, rfl⟩ := Prod.mk.inj (modifyGet_eq_some.1 hstore')
    obtain ⟨_, m₇, h₇, h⟩ := bind_eq_some.1 h
    obtain rfl := modify_eq_some.1 h₇
    have hruns := @Runs.behave σ p c i depth _ _ _ _ _ _ _ _ _ _ hl hr hb hsur hargs
    refine ⟨[⟨depth, .behaved target⟩], ?_⟩
    -- Notice is given only if the call site remembers other arguments.
    cases hc : store.memory.isChange site arguments with
    | true =>
      rw [hc] at h hruns
      obtain ⟨_, m₈, h₈, h⟩ := bind_eq_some.1 h
      obtain ⟨store', hstore', rfl⟩ := evaluate_eq_some.1 h₈
      obtain rfl := modify_eq_some.1 hstore'
      obtain ⟨store', hstore', rfl⟩ := evaluate_eq_some.1 h
      obtain rfl := modify_eq_some.1 hstore'
      exact hruns
    | false =>
      rw [hc] at h hruns
      obtain ⟨store', hstore', rfl⟩ := evaluate_eq_some.1 h
      obtain rfl := modify_eq_some.1 hstore'
      exact hruns

omit hrun in
theorem runs_of_assign {site : Path} {d : Domain} {k : Nat} {expression : Expr d}
    (h : Run.action p c runOption i state site (.assign k expression) m = some ((), m')) :
    ∃ events, Runs p c (.action i state site (.assign k expression)) depth m events m' := by
  obtain ⟨s, m₁, hsur, h⟩ := bind_eq_some.1 h
  obtain ⟨rfl, -⟩ := surroundings_eq_some.1 hsur
  obtain ⟨x, m₂, h₂, h⟩ := bind_eq_some.1 h
  obtain ⟨store, hx, rfl⟩ := evaluate_eq_some.1 h₂
  obtain ⟨symbol, m₃, h₃, h⟩ := bind_eq_some.1 h
  obtain ⟨hk, rfl⟩ := lift_eq_some.1 h₃
  obtain ⟨_, m₄, h₄, h⟩ := bind_eq_some.1 h
  obtain ⟨store', hstore', rfl⟩ := evaluate_eq_some.1 h₄
  obtain rfl := modify_eq_some.1 hstore'
  obtain rfl := modify_eq_some.1 h
  exact ⟨_, .assign hsur hx hk⟩

theorem runs_of_action {site : Path} {a : Action}
    (h : Run.action p c runOption i state site a m = some ((), m')) :
    ∃ events, Runs p c (.action i state site a) depth m events m' := by
  cases a with
  | activate => exact runs_of_activate hrun depth h
  | behave => exact runs_of_behave depth h
  | assign => exact runs_of_assign depth h

theorem runs_of_actions {path : Path} {k : Nat} {as : List Action}
    (h : ((as.zipIdx k).forM fun (a, k) => Run.action p c runOption i state (k :: path) a :
      Run σ Unit) m = some ((), m')) :
    ∃ events, Runs p c (.actions i state path k as) depth m events m' := by
  induction as generalizing k m with
  | nil =>
    obtain ⟨-, rfl⟩ := pure_eq_some.1 h
    exact ⟨[], .nil⟩
  | cons a as ih =>
    obtain ⟨_, m₁, h₁, h⟩ := bind_eq_some.1 h
    obtain ⟨events, hevents⟩ := runs_of_action hrun depth h₁
    obtain ⟨events', hevents'⟩ := ih h
    exact ⟨events ++ events', .cons hevents hevents'⟩

theorem runs_of_unranOption {a : Activation} (ha : m.options[i]? = some a)
    (hr : a.ranIn c.number = false) (h : Run.unranOption p c runOption i m = some ((), m')) :
    ∃ events, Runs p c (.option i) depth m events m' := by
  obtain ⟨node, m₁, h₁, h⟩ := bind_eq_some.1 h
  obtain ⟨hn, rfl⟩ := lift_eq_some.1 h₁
  obtain ⟨_, m₂, h₂, h⟩ := bind_eq_some.1 h
  obtain rfl := modifyActivation_eq_some.1 h₂
  obtain ⟨a', m₃, h₃, h⟩ := bind_eq_some.1 h
  obtain ⟨ha', rfl⟩ := activation_eq_some.1 h₃
  obtain rfl : a.start c node.initial = a' := by
    simpa [Machine.modifyOption, ha] using ha'
  obtain ⟨state, m₄, h₄, h⟩ := bind_eq_some.1 h
  obtain ⟨hs, rfl⟩ := lift_eq_some.1 h₄
  obtain ⟨_, m₅, hacts, h⟩ := bind_eq_some.1 h
  obtain ⟨events, hevents⟩ : ∃ events, Runs p c
      (.actions i state [(a.start c node.initial).executed, i] 0 state.actions) (depth + 1) _
      events m₅ := runs_of_actions hrun (depth + 1) hacts
  obtain ⟨s, m₆, hsur, h⟩ := bind_eq_some.1 h
  obtain ⟨rfl, -⟩ := surroundings_eq_some.1 hsur
  obtain ⟨next, m₇, h₇, h⟩ := bind_eq_some.1 h
  obtain ⟨store, hsel, rfl⟩ := evaluate_eq_some.1 h₇
  obtain ⟨_, m₈, h₈, h⟩ := bind_eq_some.1 h
  obtain ⟨hnext, rfl⟩ := lift_eq_some.1 h₈
  obtain rfl := modifyActivation_eq_some.1 h
  exact ⟨_, .enter ha hr hn hs hevents hsur hsel (Registry.at?_isSome_iff.1 ⟨_, hnext⟩)⟩

end Actions

/-- **Running an option follows the rules**, however deep options may be nested. -/
theorem follows_option (n : Nat) : Follows p c (Run.option p c n) := by
  induction n with
  | zero =>
    intro i m m' depth h
    cases h
  | succ n ih =>
    intro i m m' depth h
    obtain ⟨a, m₁, h₁, h⟩ := bind_eq_some.1 h
    obtain ⟨ha, rfl⟩ := activation_eq_some.1 h₁
    by_cases hr : a.ranIn c.number
    · rw [if_pos hr] at h
      obtain ⟨-, rfl⟩ := pure_eq_some.1 h
      exact ⟨[], .again ha hr⟩
    · rw [if_neg hr] at h
      exact runs_of_unranOption ih depth ha (by simpa using hr) h

end Run

end BehaviorEngine
