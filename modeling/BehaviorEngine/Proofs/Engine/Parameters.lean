import BehaviorEngine.Proofs.Cycle.Parameters
import BehaviorEngine.Proofs.Engine.Snapshots

/-!
Parameters of options of an engine. Graphs in use are complete, so an activation binds each
parameter of the option that it starts. Whatever calls the engine has taken, these values stay for
the rest of the cycle: all that the option evaluates reads them, and the snapshot shows them.
-/

namespace BehaviorEngine

open Partial

variable {σ : Type}

/-! ### Entries of options -/

/-- What the entry of an option shows is found in the trace, and among what options keep. -/
theorem Moment.option_of_shown? {p : Program σ} {options : List Activation} {x : Moment σ}
    {w w' : World σ} {b : ActiveBehavior} {name : String}
    (h : x.shown? p options w = some (some b, w')) (hb : b.activity.subject = .option name) :
    ∃ i node a time state stateTime shown, p.graph.options.name? i = some name ∧
      p.graph.options.at? i = some node ∧ options[i]? = some a ∧
      node.parameters.bound? p.environment.symbols a.parameters = some shown ∧
      b.activity = .option name time state stateTime shown := by
  have hsubject := Moment.subject?_of_shown? h
  rw [Option.map_some, hb] at hsubject
  cases x with
  | enters depth i k time stateTime =>
    obtain ⟨node, w₁, h₁, h⟩ := bind_eq_some.1 h
    obtain ⟨name', w₂, h₂, h⟩ := bind_eq_some.1 h
    obtain ⟨stateName, w₃, -, h⟩ := bind_eq_some.1 h
    obtain ⟨a, w₄, h₄, h⟩ := bind_eq_some.1 h
    obtain ⟨shown, w₅, h₅, h⟩ := bind_eq_some.1 h
    obtain ⟨hentry, -⟩ := pure_eq_some.1 h
    cases hentry
    cases hb
    exact ⟨i, node, a, time, stateName, stateTime, shown, (lift_eq_some.1 h₂).1,
      (lift_eq_some.1 h₁).1, (lift_eq_some.1 h₄).1, (lift_eq_some.1 h₅).1, rfl⟩
  | requests depth k =>
    obtain ⟨_, -, hname⟩ := Option.map_eq_some_iff.1 hsubject.symm
    cases hname
  | assigns depth k expression y =>
    obtain ⟨_, -, hname⟩ := Option.map_eq_some_iff.1 hsubject.symm
    cases hname
  | evaluates | behaves | selects => cases hsubject

/-- An entry of a snapshot is that of a moment. -/
theorem exists_of_mem_replay {p : Program σ} {options : List Activation} {trace : List (Moment σ)}
    {w w' : World σ} {entries : List ActiveBehavior} {b : ActiveBehavior}
    (h : replay p options trace w = some (entries, w')) (hb : b ∈ entries) :
    ∃ x ∈ trace, ∃ w₁ w₂, x.shown? p options w₁ = some (some b, w₂) := by
  induction trace generalizing w entries with
  | nil =>
    obtain ⟨rfl, -⟩ := replay_nil.1 h
    cases hb
  | cons x trace ih =>
    obtain ⟨entry, w₁, rest, hx, hrest, rfl⟩ := replay_cons.1 h
    rcases List.mem_append.1 hb with hb | hb
    · rw [Option.mem_toList] at hb
      cases hb
      exact ⟨x, List.mem_cons_self .., w, w₁, hx⟩
    · obtain ⟨y, hy, w₂, w₃, hshown⟩ := ih hrest hb
      exact ⟨y, List.mem_cons_of_mem _ hy, w₂, w₃, hshown⟩

namespace Engine

variable {e e' : Engine σ}

/-! ### Complete graphs -/

/-- The graph in use, if there is one, is complete. -/
def Complete (e : Engine σ) : Prop := ∀ l ∈ e.loaded, Program.Complete ⟨e.environment, l.graph⟩

namespace Complete

theorem new (limits : Limits) (environment : Environment σ) (world : World σ) :
    (Engine.new limits environment world).Complete := nofun

theorem step (h : e.Complete) (hs : e.Steps e') : e'.Complete := by
  cases hs with
  | cycle hc =>
    obtain ⟨l, m, hl, -, rfl⟩ := hc
    rintro _ ⟨⟩
    exact h l hl
  | reset =>
    intro l hl
    obtain ⟨l₀, hl₀, rfl⟩ := Option.map_eq_some_iff.1 hl
    exact h l₀ hl₀
  | load hg =>
    rintro _ ⟨⟩
    exact Graph.complete_of_ofSource hg
  | unload => exact nofun
  | selectAgent hl | selectRoot hl =>
    have hcomplete := h _ hl
    rintro _ ⟨⟩
    exact hcomplete
  | touch => exact h

theorem after (h : e.Complete) (calls : List (Call σ)) : (e.after calls).Complete := by
  induction calls generalizing e with
  | nil => exact h
  | cons c calls ih => exact ih (h.step (e.steps_call c))

end Complete

/-! ### Parameters -/

variable {now : Nat} {trace : List (Moment σ)}

theorem Traced.cycle_eq (ht : e.Traced now trace e') : e'.cycle = e.cycle + 1 := by
  obtain ⟨-, _, _, -, -, rfl⟩ := ht
  rfl

/-- A cycle that has a trace is what a call runs. -/
theorem Traced.call_eq (ht : e.Traced now trace e') : e.call (.execute now) = e' := by
  rw [call, ht.1]

/-- An option other than the root is activated right before it is entered, and the arguments are the
values of its parameters until the cycle ends. -/
theorem Traced.activated {l : Loaded} (ht : e.Traced now trace e') (hl : e.loaded = some l)
    (hr : e.InRange) (hc : e.Complete) {n o k time stateTime : Nat}
    (hx : .enters n o k time stateTime ∈ trace) (ho : o ≠ l.root) :
    ∃ before j k' i s m after arguments values l' a,
      trace = before ++ .evaluates i [j, k', i] s m :: .enters n o k time stateTime :: after ∧
      (∃ n' time' stateTime', .enters n' i k' time' stateTime' ∈ before) ∧
      m.Activates ⟨e.environment, l.graph⟩ ⟨e.cycle + 1, now⟩ o [j, k', i] s arguments values ∧
      Argument.Fill arguments values ∧
      (∀ path s' m', .evaluates o path s' m' ∈ trace → s'.parameters = values) ∧
      e'.loaded = some l' ∧ l'.options[o]? = some a ∧ a.parameters = values := by
  obtain ⟨m', htrace, rfl⟩ := ht.traces hl
  rcases htrace.activated trivial hx with ⟨h, -⟩ | ⟨before, j, k', i, s, m, after, arguments,
    values, rfl, hacti, ⟨a, ha, hran, hvalues⟩, hplace⟩
  · cases h
    exact absurd rfl ho
  · have hplace := hplace.resolve_left nofun
    refine ⟨before, j, k', i, s, m, after, arguments, values, _, a, rfl, hplace, hacti, ?_, ?_, rfl,
      ha, hvalues⟩
    · obtain ⟨bindings, haction, store, hargs⟩ := hacti.bindings
      obtain ⟨b, b', -, hbind, rfl⟩ := hacti.bound
      obtain ⟨node, hn, hbound⟩ :=
        (hc l hl).activation_boundBy (hr.loaded l hl).program haction hargs
      have hrange := hr.loaded l hl
      have hfits := htrace.runs.fits (p := ⟨e.environment, l.graph⟩)
        ⟨hrange.length, hrange.options, hr.behaviors⟩
      refine Activation.fill hbound hbind fun d => ?_
      rw [← hvalues]
      exact (hfits.options o node a hn ha).parameters d
    · intro path s' m₁ hmem
      obtain ⟨b, hb, -, hs⟩ := htrace.evaluates_parameters nofun hmem
      obtain rfl := Option.some_inj.1 (ha.symm.trans hb)
      rw [← hs, hvalues]

/-- An option that has run in a cycle was entered in it. -/
theorem Traced.enters_of_ran {l l' : Loaded} (ht : e.Traced now trace e') (hl : e.loaded = some l)
    (hp : e.Past) (hl' : e'.loaded = some l') {o : Nat} {a : Activation}
    (ha : l'.options[o]? = some a) (hran : a.ranIn e'.cycle = true) :
    ∃ depth k time stateTime, .enters depth o k time stateTime ∈ trace := by
  obtain ⟨m, htrace, rfl⟩ := ht.traces hl
  obtain rfl := Option.some_inj.1 hl'
  exact htrace.enters_iff.2 ⟨hp.not_ran hl now o, a, ha, hran⟩

/-- **Parameters are fixed by the activation.** Whatever calls an engine has taken, an option that
the next cycle enters, but not as the root, is entered because an action of a state that runs
activates it, and it has not run before. The arguments of that action are the values of its
parameters until the cycle ends: they are what references in its actions, its call sites and its
decision tree are worth, what it keeps, and what the snapshot shows. -/
theorem parameters_fixed (limits : Limits) (environment : Environment σ) (world : World σ)
    (calls : List (Call σ)) (l : Loaded)
    (hl : ((Engine.new limits environment world).after calls).loaded = some l) (now : Nat) :
    (∃ trace e', ((Engine.new limits environment world).after calls).Traced now trace e') ∧
    ∀ trace e', ((Engine.new limits environment world).after calls).Traced now trace e' →
      ∀ n o k time stateTime, .enters n o k time stateTime ∈ trace → o ≠ l.root →
        ∃ before j k' i s m after arguments values l' a,
          trace = before ++ .evaluates i [j, k', i] s m :: .enters n o k time stateTime :: after ∧
          (∃ n' time' stateTime', .enters n' i k' time' stateTime' ∈ before) ∧
          m.Activates ⟨environment, l.graph⟩ ⟨e'.cycle, now⟩ o [j, k', i] s arguments values ∧
          Argument.Fill arguments values ∧
          (∀ path s' m', .evaluates o path s' m' ∈ trace → s'.parameters = values ∧
            ∀ d t index place store x,
              (Expr.parameter (d := d) t index).value s' place store = some (x, store) ↔
                ⟨d, index, x⟩ ∈ arguments) ∧
          e'.loaded = some l' ∧ l'.options[o]? = some a ∧ a.parameters = values ∧
          ∀ node name, l.graph.options.at? o = some node → l.graph.options.name? o = some name →
            .option name ∈ e'.activeBehaviors.1.map (·.activity.subject) ∧
            ∀ b ∈ e'.activeBehaviors.1, b.activity.subject = .option name →
              ∃ time state stateTime shown,
                node.parameters.bound? environment.symbols values = some shown ∧
                b.activity = .option name time state stateTime shown := by
  have hr := (InRange.new limits environment world).after calls
  have hp := (Past.new limits environment world).after calls
  have hc := (Complete.new limits environment world).after calls
  have henvironment := after_environment (Engine.new limits environment world) calls
  refine ⟨hr.exists_traced hl now, fun trace e' ht n o k time stateTime hx ho => ?_⟩
  obtain ⟨before, j, k', i, s, m, after, arguments, values, l', a, htrace, henters, hacti, hfill,
    hevaluates, hl', ha, hvalues⟩ := ht.activated hl hr hc hx ho
  obtain ⟨l'', entries, world', hl'', hsnapshot, hreplays⟩ := ht.replays hl hr hp
  obtain rfl := Option.some_inj.1 (hl'.symm.trans hl'')
  rw [henvironment] at hacti hreplays
  refine ⟨before, j, k', i, s, m, after, arguments, values, l', a, htrace, henters,
    ht.cycle_eq ▸ hacti, hfill, fun path s' m' hmem => ?_, hl', ha, hvalues,
    fun node name hn hname => ?_⟩
  · have hs := hevaluates path s' m' hmem
    exact ⟨hs, fun d t index place store x => Argument.Fill.value_iff (hs ▸ hfill)⟩
  · rw [hsnapshot]
    obtain ⟨a', ha', hran, -⟩ := hreplays.kept n o k time stateTime hx
    refine ⟨(hreplays.option_iff name).2 ⟨o, a', hname, ha', hran⟩, fun b hb hsubject => ?_⟩
    obtain ⟨x, -, w₁, w₂, hshown⟩ := exists_of_mem_replay hreplays.replay_eq hb
    obtain ⟨o', node', b', time', state', stateTime', shown, hname', hn', hb', hbound,
      hactivity⟩ := Moment.option_of_shown? hshown hsubject
    obtain rfl := Registry.name?_inj hname hname'
    obtain rfl := Option.some_inj.1 (hn.symm.trans hn')
    obtain rfl := Option.some_inj.1 (ha.symm.trans hb')
    exact ⟨time', state', stateTime', shown, hvalues ▸ hbound, hactivity⟩

/-- A source in which an option is activated twice, with different arguments. -/
def shineSource : String :=
  "2 main 0 shine 1 b on main 1 s s s 0 2 o shine 1 b on v true o shine 1 b on v false t s " ++
  "shine 1 s s s 0 1 b lit p on t s 0"

/-- The first activation has settled the parameter. -/
example : let e := lampEngine.after [.create shineSource, .execute 5]
    e.world.read .boolean "lit" = true := by
  decide +kernel

theorem parameters_fixed_shine : ∃ l trace e' l' a before site i s m after arguments values
    n k time stateTime,
    (lampEngine.after [.create shineSource]).loaded = some l ∧
    (lampEngine.after [.create shineSource]).Traced 5 trace e' ∧ 1 ≠ l.root ∧
    trace = before ++ .evaluates i site s m :: .enters n 1 k time stateTime :: after ∧
    Argument.Fill arguments values ∧ e'.loaded = some l' ∧ l'.options[1]? = some a ∧
    a.parameters = values := by
  have hroot : (lampEngine.after [.create shineSource]).loaded.map Loaded.root = some 0 := by
    decide +kernel
  have hran : let e := (lampEngine.after [.create shineSource]).call (.execute 5)
      (e.loaded.bind fun l => l.options[1]?).any (·.ranIn e.cycle) = true := by decide +kernel
  obtain ⟨l, hl, hroot⟩ := Option.map_eq_some_iff.1 hroot
  obtain ⟨⟨trace, e', ht⟩, hlaw⟩ := parameters_fixed _ _ _ _ l hl 5
  have ht : (lampEngine.after [.create shineSource]).Traced 5 trace e' := ht
  rw [ht.call_eq] at hran
  obtain ⟨a, ha, hran⟩ := (Option.any_eq_true _ _).1 hran
  obtain ⟨l', hl', ha⟩ := Option.bind_eq_some_iff.1 ha
  have hp : (lampEngine.after [.create shineSource]).Past := (Past.new _ _ _).after _
  obtain ⟨n, k, time, stateTime, hx⟩ := ht.enters_of_ran hl hp hl' ha hran
  have hne : 1 ≠ l.root := hroot ▸ Nat.one_ne_zero
  obtain ⟨before, j, k', i, s, m, after, arguments, values, l'', a', htrace, -, -, hfill, -, hl'',
    ha', hvalues, -⟩ := hlaw trace e' ht n 1 k time stateTime hx hne
  exact ⟨l, trace, e', l'', a', before, _, i, s, m, after, arguments, values, n, k, time, stateTime,
    hl, ht, hne, htrace, hfill, hl'', ha', hvalues⟩

end Engine

end BehaviorEngine
