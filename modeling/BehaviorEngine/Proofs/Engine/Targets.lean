import BehaviorEngine.Proofs.Cycle.Moments
import BehaviorEngine.Proofs.Engine.Continuity

/-!
Target states. The leaf `t` of boolean expressions asks whether an option that the state activates
has reached its goal. It counts an option only if the option ran in this cycle or the one before;
of every run of every engine, that is told by the trace of the cycle up to the moment at which the
leaf is evaluated, and by the history of the engine (`Proceeds.ranLately_iff`).

Main statement: `targets_are_seen`.
-/

namespace BehaviorEngine

open Partial

variable {σ : Type}

/-! ### The leaf -/

/-- The active state of an option is a target state. -/
def Machine.InTarget (m : Machine σ) (g : Graph) (i : Nat) : Prop :=
  ∃ a state, m.options[i]? = some a ∧ g.state? i a.active = some state ∧ state.isTarget = true

/-- An option ran in a cycle or in the one before. -/
def Machine.RanLately (m : Machine σ) (cycle i : Nat) : Prop :=
  ∃ a, m.options[i]? = some a ∧ a.ranLately cycle = true

theorem Run.restsInTarget_eq_true {g : Graph} {m : Machine σ} {cycle i : Nat} :
    Run.restsInTarget g m.options cycle i = some true ↔
      m.InTarget g i ∧ m.RanLately cycle i := by
  unfold Run.restsInTarget Machine.InTarget Machine.RanLately
  cases ha : m.options[i]? with
  | none => simp
  | some a =>
    cases hr : a.ranLately cycle with
    | false => simp [hr]
    | true =>
      simp only [hr, Graph.state?_eq_some, Option.bind_eq_bind, Option.bind_some, if_true,
        Option.bind_eq_some_iff, Option.some_inj, exists_eq_left', and_true]
      constructor
      · rintro ⟨node, hn, state, hs, htarget⟩
        exact ⟨a, state, rfl, ⟨node, hn, hs⟩, Option.some_inj.1 htarget⟩
      · rintro ⟨_, state, rfl, ⟨node, hn, hs⟩, htarget⟩
        exact ⟨node, hn, state, hs, congrArg some htarget⟩

/-- A search that always gets an answer finds what there is to find. -/
theorem anyM_eq_some {α : Type} {f : α → Option Bool} {xs : List α} {b : Bool}
    (h : xs.anyM f = some b) (hf : ∀ x ∈ xs, ∃ b, f x = some b) :
    b = true ↔ ∃ x ∈ xs, f x = some true := by
  induction xs with
  | nil =>
    cases h
    simp
  | cons x xs ih =>
    obtain ⟨b', hb'⟩ := hf x (List.mem_cons_self ..)
    cases b' with
    | true =>
      have hb : true = b := by simpa [List.anyM, hb'] using h
      exact iff_of_true hb.symm ⟨x, List.mem_cons_self .., hb'⟩
    | false =>
      have hxs : xs.anyM f = some b := by simpa [List.anyM, hb'] using h
      rw [ih hxs fun y hy => hf y (List.mem_cons_of_mem _ hy)]
      simp [hb']

/-- **What the leaf tells** where a state of an option is evaluated. -/
theorem Machine.Evaluates.reachedTarget {p : Program σ} {c : Cycle} {m : Machine σ} {i k : Nat}
    {path : Path} {s : Surroundings σ} {state : Graph.State} (h : m.Evaluates p c i k path s state)
    (hf : p.Fits) (hm : m.Fits p) :
    ∃ b, s.reachedTarget = some b ∧
      (b = true ↔ ∃ j ∈ state.activated, m.InTarget p.graph j ∧ m.RanLately c.number j) := by
  obtain ⟨node, -, hfits⟩ := hf.of_state? h.state_eq
  have hone : ∀ j ∈ state.activated,
      ∃ b, Run.restsInTarget p.graph m.options c.number j = some b :=
    fun j hj => Run.restsInTarget_succeeds hm (hfits.activated_lt j hj)
  obtain ⟨b, hb⟩ := anyM_succeeds hone
  obtain ⟨-, a, time, -, -, rfl⟩ := Run.surroundings_eq_some.1 h.surroundings
  refine ⟨b, hb, ?_⟩
  rw [anyM_eq_some hb hone]
  simp only [Run.restsInTarget_eq_true]

/-- The options that a record tells to have run are those that its trace enters. -/
theorem Record.ran_cycle_iff {now : Nat} {trace : List (Moment σ)} {i : Nat} :
    (Record.cycle now trace).ran i = true ↔ Enters trace i := by
  unfold Record.ran Record.state?
  rw [List.findSome?_isSome_iff]
  constructor
  · rintro ⟨x, hx, hsome⟩
    cases x with
    | enters depth j k time stateTime =>
      by_cases hj : j = i
      · subst hj
        exact ⟨depth, k, time, stateTime, hx⟩
      · simp [Moment.entered?, hj] at hsome
    | _ => cases hsome
  · rintro ⟨depth, k, time, stateTime, hx⟩
    exact ⟨_, hx, by simp [Moment.entered?]⟩

namespace Engine

variable {e e' : Engine σ} {now : Nat} {trace before after : List (Moment σ)}
  {past : List (Record σ)} {i : Nat} {path : Path} {s : Surroundings σ} {m : Machine σ}

/-! ### Moments of a cycle -/

/-- An option that has not run yet is one that lately ran if its last run was in the cycle before
and has not been forgotten. -/
theorem Past.ranLately_eq (hp : e.Past) {l : Loaded} (hl : e.loaded = some l) {a : Activation}
    (ha : a ∈ l.options) : a.ranLately (e.cycle + 1) = a.continues (e.cycle + 1) := by
  have hpast := hp.options l hl a ha
  unfold Activation.ranLately Activation.continues
  cases hlast : a.lastCycle with
  | none => rfl
  | some n =>
    have hn := hpast n hlast
    simp only [Option.any_some, decide_eq_decide]
    omega

/-- **Who ran lately**, at a moment of a cycle: the options that the trace has entered, and those
that ran in the cycle before, unless that is forgotten. -/
theorem Recalls.ranLately_iff (h : e.Recalls past) (hp : e.Past) {l : Loaded}
    (hl : e.loaded = some l) {m₀ : Machine σ} (hoptions : m₀.options = l.options)
    (hproceeds : Proceeds ⟨e.cycle + 1, now⟩ m₀ before m) {j : Nat} {a : Activation}
    (ha : m.options[j]? = some a) :
    m.RanLately (e.cycle + 1) j ↔
      (Record.cycle now before).ran j = true ∨ past.head?.any (Record.ran j) = true := by
  have hlately : m.RanLately (e.cycle + 1) j ↔ a.ranLately (e.cycle + 1) = true := by
    unfold Machine.RanLately
    simp [ha]
  have hnot : ¬ m₀.Ran ⟨e.cycle + 1, now⟩ j := by
    unfold Machine.Ran
    rw [hoptions]
    exact hp.not_ran hl now j
  have hran : m.Ran ⟨e.cycle + 1, now⟩ j ↔ Enters before j := by
    rw [hproceeds.ran_iff, or_iff_right hnot]
  rw [hlately, Record.ran_cycle_iff, ← hran, Machine.ran_iff ha]
  cases hr : a.ranIn (e.cycle + 1) with
  | true =>
    have hlast : a.lastCycle = some (e.cycle + 1) := of_decide_eq_true hr
    have hnow : a.ranLately (e.cycle + 1) = true := by simp [Activation.ranLately, hlast]
    exact iff_of_true hnow (.inl rfl)
  | false =>
    have hstart : l.options[j]? = some a := by
      rw [← hoptions]
      exact hproceeds.unran j a ha hr
    rw [hp.ranLately_eq hl (List.mem_of_getElem? hstart), (h l hl j a hstart).continues]
    exact (or_iff_right Bool.false_ne_true).symm

/-- A moment of a cycle at which something is evaluated. -/
theorem Traced.evaluates (ht : e.Traced now trace e') (hr : e.InRange) {l : Loaded}
    (hl : e.loaded = some l) (hx : trace = before ++ .evaluates i path s m :: after) :
    m.Fits ⟨e.environment, l.graph⟩ ∧
      Proceeds ⟨e.cycle + 1, now⟩ { e.machine l with assigned := PerDomain.ofFn fun _ => [] }
        before m ∧
      ∃ k state, m.Evaluates ⟨e.environment, l.graph⟩ ⟨e.cycle + 1, now⟩ i k path s state ∧
        ∃ depth time stateTime, .enters depth i k time stateTime ∈ before := by
  obtain ⟨m', htrace, -⟩ := ht.traces hl
  have hstart := hr.machine hl
  obtain ⟨hfits, hproceeds, -, k, state, hev, hplace⟩ :=
    htrace.evaluates trivial nofun ⟨hstart.length, hstart.options, hstart.behaviors⟩ hx
  exact ⟨hfits, hproceeds, k, state, hev, hplace.resolve_left nofun⟩

/-- The root evaluates its decision tree at the end of the cycle. -/
theorem Traced.decides (ht : e.Traced now trace e') {l : Loaded} (hl : e.loaded = some l)
    (hp : e.Past) : ∃ before k state s m next,
      trace = before ++ [.evaluates l.root [state.actions.length, k, l.root] s m,
        .selects l.root next] ∧
      l.graph.state? l.root k = some state := by
  obtain ⟨m', htrace, -⟩ := ht.traces hl
  cases htrace with
  | again ha hr => exact absurd ⟨_, ha, hr⟩ (hp.not_ran hl now l.root)
  | enter _ _ hn _ _ hs =>
    exact ⟨_ :: _, _, _, _, _, _, rfl, Graph.state?_eq_some.2 ⟨_, hn, hs⟩⟩

/-- **The leaf `t` sees the targets that are reached.** Whatever calls an engine has taken and
whatever the clock reads, in its next cycle and wherever something is evaluated, the leaf has a
value: it tells whether an option that the state activates has a target state as its active state
and has run by then, in this cycle or in the one before unless that is forgotten.

Where the decision tree of the state is evaluated, all options that the state activates have run in
this cycle, so the leaf tells whether one of them has a target state as its active state. The active
state of an option that has finished its run is the one that its own decision tree selected. -/
theorem targets_are_seen (limits : Limits) (environment : Environment σ) (world : World σ)
    (calls : List (Call σ)) (l : Loaded)
    (hl : ((Engine.new limits environment world).after calls).loaded = some l) (now : Nat) :
    (∃ past, (Engine.new limits environment world).History calls past) ∧
    (∃ trace e', ((Engine.new limits environment world).after calls).Traced now trace e') ∧
    ∀ past trace e', (Engine.new limits environment world).History calls past →
      ((Engine.new limits environment world).after calls).Traced now trace e' →
      ∀ before i path s m after, trace = before ++ .evaluates i path s m :: after →
        ∃ k state b, l.graph.state? i k = some state ∧ (∃ n, path = [n, k, i]) ∧
          (∃ depth time stateTime, .enters depth i k time stateTime ∈ before) ∧
          (∀ place store, Expr.reachedTarget.value s place store = some (b, store)) ∧
          (b = true ↔ ∃ j ∈ state.activated, m.InTarget l.graph j ∧
            ((Record.cycle now before).ran j = true ∨ past.head?.any (Record.ran j) = true)) ∧
          (path = [state.actions.length, k, i] →
            (∀ j ∈ state.activated, (Record.cycle now before).ran j = true ∧
              m.Ran ⟨((Engine.new limits environment world).after calls).cycle + 1, now⟩ j) ∧
            (b = true ↔ ∃ j ∈ state.activated, m.InTarget l.graph j)) ∧
          ∀ j next, .selects j next ∈ before →
            ∃ a, m.options[j]? = some a ∧ a.active = next := by
  have hr := (InRange.new limits environment world).after calls
  have hp := (Past.new limits environment world).after calls
  refine ⟨exists_history _ calls, hr.exists_traced hl now, ?_⟩
  intro past trace e' hhistory ht before i path s m after hx
  obtain ⟨hfits, hproceeds, k, state, hev, henters⟩ := ht.evaluates hr hl hx
  obtain ⟨b, hb, hiff⟩ := hev.reachedTarget (hr.loaded l hl).program hfits
  have hlately : ∀ j, m.InTarget l.graph j → (m.RanLately
      (((Engine.new limits environment world).after calls).cycle + 1) j ↔
      (Record.cycle now before).ran j = true ∨ past.head?.any (Record.ran j) = true) := by
    rintro j ⟨a, -, ha, -⟩
    exact hhistory.recalls_new.ranLately_iff hp hl rfl hproceeds ha
  have hseen : b = true ↔ ∃ j ∈ state.activated, m.InTarget l.graph j ∧
      ((Record.cycle now before).ran j = true ∨ past.head?.any (Record.ran j) = true) := by
    rw [hiff]
    refine exists_congr fun j => and_congr_right fun _ => and_congr_right fun hj => ?_
    exact hlately j hj
  refine ⟨k, state, b, hev.state_eq, hev.path_eq, henters, fun place store => ?_, hseen,
    fun hpath => ?_, fun j next hselects => ?_⟩
  · exact lift_eq_some.2 ⟨hb, rfl⟩
  · have hran : ∀ j ∈ state.activated, (Record.cycle now before).ran j = true ∧
        m.Ran ⟨((Engine.new limits environment world).after calls).cycle + 1, now⟩ j := by
      intro j hj
      have hmarked := hev.activated hpath j hj
      have hentered := ((hproceeds.ran_iff j).1 hmarked).resolve_left (hp.not_ran hl now j)
      exact ⟨Record.ran_cycle_iff.2 hentered, hmarked⟩
    refine ⟨hran, ?_⟩
    -- The options have run, so the guard that they ran lately excludes none of them.
    rw [hseen]
    refine exists_congr fun j => and_congr_right fun hj => ?_
    exact and_iff_left (.inl (hran j hj).1)
  · obtain ⟨a, ha, -, hactive⟩ := hproceeds.selected j next hselects
    exact ⟨a, ha, hactive⟩

/-- A parent that waits in its state for a child to reach its target. -/
def waiting : String :=
  "2 parent 0 child 0 parent 2 wait done wait wait 0 1 o child 0 i t t done t wait " ++
  "done 0 0 t done child 2 go stop go go 0 0 t stop stop 1 0 t stop 0"

/-- The child reaches its target in the first cycle, and the parent sees it in the same cycle. -/
example : ((bare.after [.create waiting, .execute 3]).loaded.map (·.options.map (·.active))) =
    some [1, 1] := by decide +kernel

theorem targets_are_seen_waiting : ∃ l past trace e' before s m k state b after,
    (bare.after [.create waiting, .execute 3]).loaded = some l ∧
    bare.History [.create waiting, .execute 3] past ∧
    (bare.after [.create waiting, .execute 3]).Traced 10 trace e' ∧
    trace = before ++ .evaluates l.root [state.actions.length, k, l.root] s m :: after ∧
    l.graph.state? l.root k = some state ∧
    (∀ place store, Expr.reachedTarget.value s place store = some (b, store)) ∧
    (b = true ↔ ∃ j ∈ state.activated, m.InTarget l.graph j) := by
  have hsome : (bare.after [.create waiting, .execute 3]).loaded.isSome = true := by
    decide +kernel
  obtain ⟨l, hl⟩ := Option.isSome_iff_exists.1 hsome
  obtain ⟨⟨past, hpast⟩, ⟨trace, e', ht⟩, hlaw⟩ := targets_are_seen _ _ _ _ l hl 10
  obtain ⟨before, k, state, s, m, next, hx, hstate⟩ := ht.decides hl ((Past.new _ _ _).after _)
  obtain ⟨k', state', b, hstate', ⟨n, hpath⟩, -, hvalue, -, hdecision, -⟩ :=
    hlaw past trace e' hpast ht before l.root _ s m _ hx
  obtain ⟨-, rfl⟩ : state.actions.length = n ∧ k = k' := by simpa using hpath
  obtain rfl := Option.some_inj.1 (hstate.symm.trans hstate')
  exact ⟨l, past, trace, e', before, s, m, k, state, b, _, hl, hpast, ht, hx, hstate, hvalue,
    (hdecision rfl).2⟩

end Engine

end BehaviorEngine
