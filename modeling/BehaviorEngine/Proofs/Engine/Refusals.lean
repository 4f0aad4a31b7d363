import BehaviorEngine.Proofs.Engine.Journal
import BehaviorEngine.Proofs.Engine.Snapshots

/-!
Refused calls. A call that is answered with an error leaves the engine as it was; only a source that
does not describe a graph takes away the graph in use, and with it the root and the selected agent.
Which graph is in use is told by the last source alone, whatever calls come after it, and as long as
there is none the engine neither runs nor selects anything.
-/

namespace BehaviorEngine

variable {σ : Type}

/-! ### Calls -/

namespace Call

/-- The source that a call gives. -/
def source? : Call σ → Option String
  | create source => some source
  | _ => none

/-- The source that was given last. -/
def lastSource? (calls : List (Call σ)) : Option String := (calls.filterMap source?).getLast?

/-- Whether a call is about the graph in use. -/
def needsGraph : Call σ → Bool
  | execute _ | selectAgent _ | selectRoot _ => true
  | create _ | reset | resetOutputs | activeBehaviors | host _ => false

theorem lastSource?_append (calls : List (Call σ)) (c : Call σ) :
    lastSource? (calls ++ [c]) = c.source?.or (lastSource? calls) := by
  cases h : c.source? with
  | none => simp [lastSource?, List.filterMap_append, h]
  | some source => simp [lastSource?, List.filterMap_append, h]

theorem mem_of_lastSource? {calls : List (Call σ)} {source : String}
    (h : lastSource? calls = some source) : .create source ∈ calls := by
  obtain ⟨c, hc, hsource⟩ := List.mem_filterMap.1 (List.mem_of_getLast? h)
  cases c with
  | create s =>
    obtain rfl := Option.some_inj.1 hsource
    exact hc
  | execute | selectAgent | selectRoot | reset | resetOutputs | activeBehaviors | host =>
    cases hsource

end Call

namespace Engine

variable {e e' : Engine σ} {now : Nat} {name source : String} {calls : List (Call σ)}

/-! ### Refusals -/

/-- A call is answered with an error. -/
def Refuses (e : Engine σ) : Call σ → Prop
  | .execute now => ∃ error, (e.execute now).1 = .error error
  | .create source => ∃ error, (e.create source).1 = .error error
  | .selectAgent name => ∃ error, (e.selectAgent name).1 = .error error
  | .selectRoot name => ∃ error, (e.selectRoot name).1 = .error error
  | .reset | .resetOutputs | .activeBehaviors | .host _ => False

/-- Whether an outcome is an error. -/
def decidableError {ε α : Type} : (x : Except ε α) → Decidable (∃ error, x = .error error)
  | .ok _ => .isFalse nofun
  | .error error => .isTrue ⟨error, rfl⟩

instance (e : Engine σ) : (c : Call σ) → Decidable (e.Refuses c)
  | .execute now => decidableError (e.execute now).1
  | .create source => decidableError (e.create source).1
  | .selectAgent name => decidableError (e.selectAgent name).1
  | .selectRoot name => decidableError (e.selectRoot name).1
  | .reset | .resetOutputs | .activeBehaviors | .host _ => .isFalse id

/-- **A cycle is refused if there is no graph**, and for no other reason. -/
theorem refuses_execute_iff (hr : e.InRange) : e.Refuses (.execute now) ↔ e.loaded = none := by
  constructor
  · rintro ⟨error, herror⟩
    refine Option.eq_none_iff_forall_ne_some.2 fun l hl => ?_
    obtain ⟨e', he⟩ := execute_succeeds hr hl now
    rw [he] at herror
    cases herror
  · intro hl
    exact ⟨.noGraph, by rw [execute_of_none hl]⟩

/-- A source is refused if it does not describe a graph. -/
theorem refuses_create_iff : e.Refuses (.create source) ↔
    ∃ error, Graph.ofSource e.limits e.environment source = .error error := by
  rw [Refuses, create]
  cases Graph.ofSource e.limits e.environment source with
  | ok g => simp
  | error error => simp

/-- An agent is refused if the graph in use has none of that name. -/
theorem refuses_selectAgent_iff : e.Refuses (.selectAgent name) ↔
    ∀ l ∈ e.loaded, l.graph.agents.find? name = none := by
  obtain ⟨hnone, error, h⟩ | ⟨l, agent, root, hl, hf, h⟩ := e.selectAgent_cases name
  · simp only [Refuses, h, Except.error.injEq, exists_eq', true_iff]
    exact hnone
  · simp [Refuses, h, hl, hf]

/-- A root option is refused if the graph in use has none of that name. -/
theorem refuses_selectRoot_iff : e.Refuses (.selectRoot name) ↔
    ∀ l ∈ e.loaded, l.graph.options.position? name = none := by
  obtain ⟨hnone, error, h⟩ | ⟨l, root, hl, hf, h⟩ := e.selectRoot_cases name
  · simp only [Refuses, h, Except.error.injEq, exists_eq', true_iff]
    exact hnone
  · simp [Refuses, h, hl, hf]

/-- Without a graph every call that is about one is refused. -/
theorem refuses_of_no_graph {c : Call σ} (hr : e.InRange) (hl : e.loaded = none)
    (hc : c.needsGraph = true) : e.Refuses c := by
  cases c with
  | execute now => exact (refuses_execute_iff hr).2 hl
  | selectAgent name => exact refuses_selectAgent_iff.2 (by simp [hl])
  | selectRoot name => exact refuses_selectRoot_iff.2 (by simp [hl])
  | create | reset | resetOutputs | activeBehaviors | host => cases hc

/-! ### What a refused call leaves -/

/-- A call about the graph in use that is refused leaves everything: it looks up what it needs
before it writes anything. A cycle that stops later would leave its outputs reset; with all
positions in range there is none. -/
theorem call_of_refuses {c : Call σ} (hr : e.InRange) (hc : c.needsGraph = true)
    (h : e.Refuses c) : e.call c = e := by
  cases c with
  | execute now => rw [call, execute_of_none ((refuses_execute_iff hr).1 h)]
  | selectAgent name =>
    obtain ⟨-, error, he⟩ | ⟨l, agent, root, -, -, he⟩ := e.selectAgent_cases name
    · rw [call, he]
    · simp [Refuses, he] at h
  | selectRoot name =>
    obtain ⟨-, error, he⟩ | ⟨l, root, -, -, he⟩ := e.selectRoot_cases name
    · rw [call, he]
    · simp [Refuses, he] at h
  | create | reset | resetOutputs | activeBehaviors | host => cases hc

/-- A source that is refused takes away the graph, and nothing else. -/
theorem call_create_of_refuses (h : e.Refuses (.create source)) :
    e.call (.create source) = { e with loaded := none } := by
  obtain ⟨error, herror⟩ := refuses_create_iff.1 h
  rw [call, create, herror]

/-! ### The graph in use -/

theorem Steps.limits_eq (h : e.Steps e') : e'.limits = e.limits := by
  cases h with
  | cycle hc =>
    obtain ⟨_, _, -, -, rfl⟩ := hc
    rfl
  | reset | load | unload | selectAgent | selectRoot | touch => rfl

theorem after_limits (e : Engine σ) (calls : List (Call σ)) :
    (e.after calls).limits = e.limits := by
  induction calls generalizing e with
  | nil => rfl
  | cons c calls ih => exact (ih (e.call c)).trans (e.steps_call c).limits_eq

/-- The graph that some calls leave in use: the one that the last source describes, if it describes
one. -/
def built? (limits : Limits) (environment : Environment σ) (calls : List (Call σ)) :
    Option Graph := do
  let source ← Call.lastSource? calls
  (Graph.ofSource limits environment source).toOption

/-- Only a source changes the graph. -/
theorem call_graph_of_rest {c : Call σ} (hc : c.source? = none) :
    (e.call c).loaded.map Loaded.graph = e.loaded.map Loaded.graph := by
  cases c with
  | create source => cases hc
  | execute now =>
    rw [call]
    obtain ⟨-, he⟩ | ⟨_, _, ⟨l, m, hl, -, rfl⟩, he⟩ | he := e.execute_cases now
    · rw [he]
    · rw [he, hl]
      rfl
    · rw [he]
      rfl
  | reset => simp [call, Engine.reset, Function.comp_def]
  | selectAgent name =>
    rw [call]
    obtain ⟨-, _, he⟩ | ⟨l, agent, root, hl, -, he⟩ := e.selectAgent_cases name
    · rw [he]
    · rw [he, hl]
      rfl
  | selectRoot name =>
    rw [call]
    obtain ⟨-, _, he⟩ | ⟨l, root, hl, -, he⟩ := e.selectRoot_cases name
    · rw [he]
    · rw [he, hl]
      rfl
  | activeBehaviors =>
    rw [call, e.activeBehaviors_eq]
  | resetOutputs | host => rfl

/-- A source decides which graph is in use. -/
theorem call_graph_of_create (source : String) : (e.call (.create source)).loaded.map Loaded.graph =
    (Graph.ofSource e.limits e.environment source).toOption := by
  rw [call, create]
  cases Graph.ofSource e.limits e.environment source with
  | error => rfl
  | ok g => rfl

/-- **The last source decides which graph is in use.** -/
theorem after_graph_eq (hn : e.loaded = none) (calls : List (Call σ)) :
    (e.after calls).loaded.map Loaded.graph = built? e.limits e.environment calls := by
  induction calls using List.reverseRecOn with
  | nil => simp [after, hn, built?, Call.lastSource?]
  | append_singleton calls c ih =>
    rw [after_append, built?, Call.lastSource?_append]
    cases hc : c.source? with
    | none =>
      rw [call_graph_of_rest hc, ih, Option.none_or, built?]
    | some source =>
      cases c with
      | create s =>
        obtain rfl := Option.some_inj.1 hc
        rw [call_graph_of_create, after_limits, after_environment]
        rfl
      | execute | selectAgent | selectRoot | reset | resetOutputs | activeBehaviors | host =>
        cases hc

/-- The graph in use is the one that the last source describes. -/
theorem exists_source (hn : e.loaded = none) {calls : List (Call σ)} {l : Loaded}
    (hl : (e.after calls).loaded = some l) : ∃ source, Call.lastSource? calls = some source ∧
      Graph.ofSource e.limits e.environment source = .ok l.graph := by
  have hbuilt := after_graph_eq hn calls
  rw [hl] at hbuilt
  obtain ⟨source, hsource, hg⟩ := Option.bind_eq_some_iff.1 hbuilt.symm
  refine ⟨source, hsource, ?_⟩
  cases hbuilds : Graph.ofSource e.limits e.environment source with
  | error => simp [hbuilds, Except.toOption] at hg
  | ok g =>
    obtain rfl : g = l.graph := by simpa [hbuilds, Except.toOption] using hg
    rfl

/-! ### The root and the agent -/

/-- If an agent is selected, the root is its option. -/
def Rooted (e : Engine σ) : Prop :=
  ∀ l ∈ e.loaded, ∀ i ∈ l.agent, l.graph.agents.at? i = some l.root

namespace Rooted

theorem new (limits : Limits) (environment : Environment σ) (world : World σ) :
    (Engine.new limits environment world).Rooted := nofun

theorem reset (h : e.Rooted) : e.reset.Rooted := by
  intro l hl
  obtain ⟨l₀, hl₀, rfl⟩ := Option.map_eq_some_iff.1 hl
  exact h l₀ hl₀

/-- With a new graph the root is the option of its first agent, or its first option. -/
theorem ofGraph (g : Graph) : { e with loaded := some (Loaded.ofGraph g) }.Rooted := by
  rintro _ ⟨⟩ i hi
  cases hg : g.agents.entries with
  | nil => simp [Loaded.ofGraph, Registry.isEmpty, hg] at hi
  | cons entry entries =>
    obtain rfl : 0 = i := by simpa [Loaded.ofGraph, Registry.isEmpty, hg] using hi
    simp [Loaded.ofGraph, Graph.defaultRoot, Registry.at?_eq, hg]

theorem step (h : e.Rooted) (hs : e.Steps e') : e'.Rooted := by
  cases hs with
  | cycle hc =>
    obtain ⟨l, m, hl, -, rfl⟩ := hc
    rintro _ ⟨⟩
    exact h l hl
  | reset => exact h.reset
  | load => exact (Rooted.ofGraph _).reset
  | unload => exact fun _ => nofun
  | selectAgent hl hf =>
    rintro _ ⟨⟩ _ ⟨⟩
    rw [Registry.at?_eq, Registry.find?_eq_some_iff.1 hf]
    rfl
  | selectRoot =>
    rintro _ ⟨⟩
    exact nofun
  | touch => exact h

theorem after (h : e.Rooted) (calls : List (Call σ)) : (e.after calls).Rooted := by
  induction calls generalizing e with
  | nil => exact h
  | cons c calls ih => exact ih (h.step (e.steps_call c))

/-- The root is the option of the agent that is selected. -/
theorem get?_agentName? (h : e.Rooted) (hname : e.agentName? = some name) :
    ∃ l, e.loaded = some l ∧ l.graph.agents.get? name = some l.root := by
  obtain ⟨l, hl, hagent⟩ := Option.bind_eq_some_iff.1 hname
  obtain ⟨i, hi, hi'⟩ := Option.bind_eq_some_iff.1 hagent
  refine ⟨l, hl, ?_⟩
  rw [Registry.get?, Registry.position?_eq_some_iff.2 hi']
  exact h l hl i hi

end Rooted

/-! ### All calls -/

/-- Without a graph an engine gets none from sources that describe none. -/
theorem loaded_after_eq_none (hn : e.loaded = none)
    (h : ∀ s, .create s ∈ calls → ∃ error, Graph.ofSource e.limits e.environment s = .error error) :
    (e.after calls).loaded = none := by
  rw [← Option.map_eq_none_iff, after_graph_eq hn, built?]
  cases hs : Call.lastSource? calls with
  | none => rfl
  | some source =>
    obtain ⟨error, herror⟩ := h source (Call.mem_of_lastSource? hs)
    simp [herror, Except.toOption]

/-- **Refused calls.** Whatever calls an engine has taken, its graph is the one that the last source
describes, if it describes one. The root is then an option of it, and the option of the agent if one
is selected; without a graph there is no agent. A cycle or a selection that is refused changes
nothing at all. A source that is refused takes away the graph and changes nothing else, and
until a source describes a graph, every cycle and every selection is refused. -/
theorem refusals_leave (limits : Limits) (environment : Environment σ) (world : World σ)
    (calls : List (Call σ)) :
    ((Engine.new limits environment world).after calls).loaded.map Loaded.graph =
      built? limits environment calls ∧
    (∀ l, ((Engine.new limits environment world).after calls).loaded = some l →
      l.root < l.graph.options.size ∧
      ∀ i, l.agent = some i → ∃ name,
        ((Engine.new limits environment world).after calls).agentName? = some name ∧
        l.graph.agents.get? name = some l.root) ∧
    (((Engine.new limits environment world).after calls).loaded = none →
      ((Engine.new limits environment world).after calls).agentName? = none) ∧
    (∀ c, c.needsGraph = true → ((Engine.new limits environment world).after calls).Refuses c →
      (Engine.new limits environment world).after (calls ++ [c]) =
        (Engine.new limits environment world).after calls) ∧
    ∀ source, ((Engine.new limits environment world).after calls).Refuses (.create source) →
      (Engine.new limits environment world).after (calls ++ [.create source]) =
        { (Engine.new limits environment world).after calls with loaded := none } ∧
      ∀ later, (∀ s, .create s ∈ later →
          ∃ error, Graph.ofSource limits environment s = .error error) →
        ∀ c, c.needsGraph = true → ((Engine.new limits environment world).after
          (calls ++ .create source :: later)).Refuses c := by
  have hr := (InRange.new limits environment world).after calls
  have ha := (Rooted.new limits environment world).after calls
  refine ⟨after_graph_eq rfl calls, fun l hl => ⟨(hr.loaded l hl).root, fun i hi => ?_⟩,
    fun hl => ?_, fun c hc h => ?_, fun source h => ⟨?_, fun later hlater c hc => ?_⟩⟩
  · obtain ⟨name, hname⟩ := Registry.name?_isSome_iff.2 ((hr.loaded l hl).agent i hi)
    have hagent : ((Engine.new limits environment world).after calls).agentName? = some name := by
      simp [agentName?, hl, hi, hname]
    obtain ⟨l', hl', hroot⟩ := ha.get?_agentName? hagent
    obtain rfl := Option.some_inj.1 (hl.symm.trans hl')
    exact ⟨name, hagent, hroot⟩
  · rw [agentName?, hl]
    rfl
  · rw [after_append, call_of_refuses hr hc h]
  · rw [after_append, call_create_of_refuses h]
  · have hnone : ((Engine.new limits environment world).after
        (calls ++ .create source :: later)).loaded = none := by
      rw [after, List.foldl_append]
      change ((((Engine.new limits environment world).after calls).call
        (.create source)).after later).loaded = none
      rw [call_create_of_refuses h]
      refine loaded_after_eq_none rfl fun s hs => ?_
      rw [after_limits, after_environment]
      exact hlater s hs
    exact refuses_of_no_graph ((InRange.new limits environment world).after _) hnone hc

/-- The truncated source takes away the graph; the count of cycles and the marks of outputs stay. -/
example : let e := lampEngine.after [.create lampSource, .execute 5, .selectRoot "dim",
      .selectRoot "bright", .create "1 main", .execute 6]
    e.loaded.isNone = true ∧ e.cycle = 1 ∧ e.wasSet .boolean 0 = true := by
  decide +kernel

theorem refusals_leave_lamp :
    (lampEngine.after [.create lampSource, .execute 5]).Refuses (.selectRoot "bright") ∧
    lampEngine.after [.create lampSource, .execute 5, .selectRoot "bright"] =
      lampEngine.after [.create lampSource, .execute 5] ∧
    (lampEngine.after [.create lampSource, .execute 5]).Refuses (.create "1 main") ∧
    lampEngine.after [.create lampSource, .execute 5, .create "1 main"] =
      { lampEngine.after [.create lampSource, .execute 5] with loaded := none } ∧
    (lampEngine.after [.create lampSource, .execute 5, .create "1 main", .reset]).Refuses
      (.execute 6) := by
  obtain ⟨-, -, -, hneeds, hcreate⟩ := refusals_leave Limits.standard lamp ⟨Cells.empty, 0⟩
    [.create lampSource, .execute 5]
  have hselect : (lampEngine.after [.create lampSource, .execute 5]).Refuses
      (.selectRoot "bright") := by decide +kernel
  have hsource : (lampEngine.after [.create lampSource, .execute 5]).Refuses
      (.create "1 main") := by decide +kernel
  obtain ⟨hleaves, hlater⟩ := hcreate "1 main" hsource
  exact ⟨hselect, hneeds (.selectRoot "bright") rfl hselect, hsource, hleaves,
    hlater [.reset] (by simp) (.execute 6) rfl⟩

end Engine

end BehaviorEngine
