import BehaviorEngine.Proofs.Engine.History

/-!
Options in the course of time. An option that runs in two cycles, one right after the other, goes on
in the state that it selected, and its times go on; in every other cycle it starts over. A state is
timed from the cycle in which it was last selected in another state's place.
-/

namespace BehaviorEngine

namespace Engine

variable {σ : Type} {e e' : Engine σ} {now : Nat} {trace : List (Moment σ)} {past : List (Record σ)}

/-- What a cycle makes of an option that it enters, with what a history tells of the option. -/
theorem Traced.turns {l : Loaded} (ht : e.Traced now trace e') (hl : e.loaded = some l)
    (hp : e.Past) (h : e.Recalls past) {depth i k time stateTime : Nat}
    (hx : .enters depth i k time stateTime ∈ trace) :
    ∃ node state next l' a a', a.Recalls past e.cycle i ∧ l.options[i]? = some a ∧
      l.graph.Turns ⟨e.cycle + 1, now⟩ i node state next a a' ∧ k = a'.executed ∧
      (∀ j, .selects i j ∈ trace ↔ j = next) ∧
      (∀ x ∈ trace, x.option? = some i → x.Tells a') ∧
      e'.loaded = some l' ∧ l'.options[i]? = some a' := by
  obtain ⟨-, l₀, m, hl₀, htrace, rfl⟩ := ht
  obtain rfl := Option.some_inj.1 (hl.symm.trans hl₀)
  have hagrees := htrace.agrees nofun
  obtain ⟨a', ha', hran, hk, -⟩ := hagrees _ hx i rfl
  obtain ⟨node, state, next, a, ha, hturns, hselects⟩ :=
    htrace.turns ha' hran (hp.not_ran hl now i)
  have htells : ∀ x ∈ trace, x.option? = some i → x.Tells a' := by
    intro x hx hi
    obtain ⟨b, hb, -, htells⟩ := hagrees x hx i hi
    obtain rfl := Option.some_inj.1 (ha'.symm.trans hb)
    exact htells
  refine ⟨node, state, next, _, a, a', h l hl i a ha, ha, hturns, hk.symm,
    fun j => ⟨fun hj => ?_, ?_⟩, htells, rfl, ha'⟩
  · have : a'.active = j := htells _ hj rfl
    rw [← this, hturns.active_eq]
  · rintro rfl
    exact hselects

/-- The root option runs in every cycle. -/
theorem Traced.enters_root {l : Loaded} (ht : e.Traced now trace e') (hl : e.loaded = some l)
    (hp : e.Past) : ∃ depth k time stateTime, .enters depth l.root k time stateTime ∈ trace := by
  obtain ⟨-, l₀, m, hl₀, htrace, rfl⟩ := ht
  obtain rfl := Option.some_inj.1 (hl.symm.trans hl₀)
  exact htrace.enters_iff.2
    ⟨hp.not_ran hl now l.root, htrace.runs.targets_ran _ (List.mem_singleton_self _)⟩

/-- **Options go on where they left off, or start over.** Whatever calls an engine has taken, they
have a history, and the next cycle has a trace. An option that runs in this cycle runs in its
initial state if it did not run in the cycle before or activation was forgotten since, and otherwise
in the state that it selected then. It selects one state, which is a target of the decision tree of
the state that ran, and is the active state after the cycle. -/
theorem options_go_on (limits : Limits) (environment : Environment σ) (world : World σ)
    (calls : List (Call σ)) (l : Loaded)
    (hl : ((Engine.new limits environment world).after calls).loaded = some l) (now : Nat) :
    (∃ past, (Engine.new limits environment world).History calls past) ∧
    (∃ trace e', ((Engine.new limits environment world).after calls).Traced now trace e') ∧
    ∀ past trace e', (Engine.new limits environment world).History calls past →
      ((Engine.new limits environment world).after calls).Traced now trace e' →
      ∀ depth i k time stateTime, .enters depth i k time stateTime ∈ trace →
        ∃ node state next l' a, l.graph.options.at? i = some node ∧
          node.states.at? k = some state ∧
          (past.head?.any (Record.ran i) = false → k = node.initial) ∧
          (∀ r ∈ past.head?, r.ran i = true → r.next? i = some k) ∧
          (∀ j, .selects i j ∈ trace ↔ j = next) ∧ next ∈ state.decision.targets ∧
          e'.loaded = some l' ∧ l'.options[i]? = some a ∧ a.active = next := by
  have hr := (InRange.new limits environment world).after calls
  have hp := (Past.new limits environment world).after calls
  refine ⟨exists_history _ calls, hr.exists_traced hl now, ?_⟩
  intro past trace e' hhistory ht depth i k time stateTime hx
  obtain ⟨node, state, next, l', a, a', ha, -, hturns, rfl, hselects, -, hl', ha'⟩ :=
    ht.turns hl hp hhistory.recalls_new hx
  refine ⟨node, state, next, l', a', hturns.node_eq, ?_, fun hidle => ?_, fun r hr hran => ?_,
    hselects, hturns.next_mem, hl', ha', hturns.active_eq⟩
  · rw [hturns.executed_eq]
    exact hturns.state_eq
  · rw [hturns.executed_eq, ha.start_executed_of_idle hidle]
  · rw [hturns.executed_eq]
    exact ha.next?_of_ran hr hran

/-- An option that is on and off by turns. -/
def blinker : String := "1 blink 0 blink 2 on off on on 0 0 t off off 0 0 t on 0"

/-- An engine without symbols and behaviors. -/
def bare : Engine Unit := Engine.new Limits.standard Environment.empty ⟨Cells.empty, ()⟩

theorem options_go_on_blinker : ∃ l past trace e' k node state next l' a,
    (bare.after [.create blinker, .execute 3]).loaded = some l ∧
    bare.History [.create blinker, .execute 3] past ∧
    (bare.after [.create blinker, .execute 3]).Traced 10 trace e' ∧
    l.graph.options.at? l.root = some node ∧ node.states.at? k = some state ∧
    (∀ r ∈ past.head?, r.ran l.root = true → r.next? l.root = some k) ∧
    next ∈ state.decision.targets ∧
    e'.loaded = some l' ∧ l'.options[l.root]? = some a ∧ a.active = next := by
  have hsome : (bare.after [.create blinker, .execute 3]).loaded.isSome = true := by
    decide +kernel
  obtain ⟨l, hl⟩ := Option.isSome_iff_exists.1 hsome
  obtain ⟨⟨past, hpast⟩, ⟨trace, e', ht⟩, hlaw⟩ := options_go_on _ _ _ _ l hl 10
  obtain ⟨depth, k, time, stateTime, hx⟩ := ht.enters_root hl ((Past.new _ _ _).after _)
  obtain ⟨node, state, next, l', a, hnode, hstate, -, hgoes, -, hnext, hl', ha, hactive⟩ :=
    hlaw past trace e' hpast ht depth l.root k time stateTime hx
  exact ⟨l, past, trace, e', k, node, state, next, l', a, hl, hpast, ht, hnode, hstate, hgoes,
    hnext, hl', ha, hactive⟩

/-- **Times are counted from where a block of cycles began, and from the last switch.** Whatever
calls an engine has taken and whatever the clock reads, throughout its run in a cycle, and after the
cycle, an option has been active since the first of the unbroken cycles in which it ran, and its
state since the last of them in which it was selected in the place of another one, or else since the
first. Selecting a state anew leaves its time alone, and coming back to it starts its time over. -/
theorem times_go_on (limits : Limits) (environment : Environment σ) (world : World σ)
    (calls : List (Call σ)) (l : Loaded)
    (hl : ((Engine.new limits environment world).after calls).loaded = some l) (now : Nat) :
    (∃ past, (Engine.new limits environment world).History calls past) ∧
    (∃ trace e', ((Engine.new limits environment world).after calls).Traced now trace e') ∧
    ∀ past trace e', (Engine.new limits environment world).History calls past →
      ((Engine.new limits environment world).after calls).Traced now trace e' →
      ∀ depth i k time stateTime, .enters depth i k time stateTime ∈ trace →
        (∀ path s m, .evaluates i path s m ∈ trace → ∀ place store,
          Expr.optionTime.value s place store =
            some (.ofNat (now - Record.activeSince i now past), store) ∧
          Expr.stateTime.value s place store =
            some (.ofNat (now - Record.stateSince i k now past), store)) ∧
        (∃ l' a, e'.loaded = some l' ∧ l'.options[i]? = some a ∧
          a.elapsed = now - Record.activeSince i now past ∧
          a.stateTime? k = some (now - Record.stateSince i k now past)) ∧
        ∀ last trace rest, past = .cycle last trace :: rest →
          (Record.cycle last trace).ran i = true → Record.stateSince i k now past =
            if (Record.cycle last trace).switchesTo i k = true then last
            else Record.stateSince i k last rest := by
  have hr := (InRange.new limits environment world).after calls
  have hp := (Past.new limits environment world).after calls
  refine ⟨exists_history _ calls, hr.exists_traced hl now, ?_⟩
  intro past trace e' hhistory ht depth i k time stateTime hx
  obtain ⟨node, state, next, l', a, a', ha, hal, hturns, rfl, -, htells, hl', ha'⟩ :=
    ht.turns hl hp hhistory.recalls_new hx
  have hinitial : node.initial < a.clocks.length := by
    rw [((hr.loaded l hl).options i node a hturns.node_eq hal).clocks]
    exact ((hr.loaded l hl).program.options node (Registry.at?_mem hturns.node_eq)).initial
  have helapsed := ha.elapsed_eq hturns
  have hstateTime := ha.stateTime?_eq hturns hinitial
  refine ⟨fun path s m hs place store => ?_, ⟨l', a', hl', ha', helapsed, hstateTime⟩, ?_⟩
  · obtain ⟨htime, hstate⟩ : a'.elapsed = s.optionTime ∧
        a'.stateTime? a'.executed = some s.stateTime := htells _ hs rfl
    rw [← helapsed, htime, Option.some_inj.1 (hstateTime.symm.trans hstate)]
    exact ⟨rfl, rfl⟩
  · rintro last trace rest rfl hran
    exact Record.stateSince_cons hran rfl now

/-- The option is active since its first cycle at 3, and on again since it was off at 10. -/
example : ((bare.after [.create blinker, .execute 3, .execute 10, .execute 15]).loaded.bind
    (·.options[0]?)).map (fun a => (a.executed, a.elapsed, a.stateTime? 0)) =
    some (0, 12, some 5) := by decide +kernel

theorem times_go_on_blinker : ∃ l past trace e' k l' a,
    (bare.after [.create blinker, .execute 3, .execute 10]).loaded = some l ∧
    bare.History [.create blinker, .execute 3, .execute 10] past ∧
    (bare.after [.create blinker, .execute 3, .execute 10]).Traced 15 trace e' ∧
    e'.loaded = some l' ∧ l'.options[l.root]? = some a ∧
    a.elapsed = 15 - Record.activeSince l.root 15 past ∧
    a.stateTime? k = some (15 - Record.stateSince l.root k 15 past) := by
  have hsome : (bare.after [.create blinker, .execute 3, .execute 10]).loaded.isSome = true := by
    decide +kernel
  obtain ⟨l, hl⟩ := Option.isSome_iff_exists.1 hsome
  obtain ⟨⟨past, hpast⟩, ⟨trace, e', ht⟩, hlaw⟩ := times_go_on _ _ _ _ l hl 15
  obtain ⟨depth, k, time, stateTime, hx⟩ := ht.enters_root hl ((Past.new _ _ _).after _)
  obtain ⟨-, ⟨l', a, hl', ha, helapsed, hstate⟩, -⟩ :=
    hlaw past trace e' hpast ht depth l.root k time stateTime hx
  exact ⟨l, past, trace, e', k, l', a, hl, hpast, ht, hl', ha, helapsed, hstate⟩

end Engine

end BehaviorEngine
