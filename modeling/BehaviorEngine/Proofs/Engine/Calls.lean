import BehaviorEngine.Engine.Basic
import BehaviorEngine.Proofs.Snapshot.Completion

/-!
Sequences of calls. The engine is used by calling it in any order: cycles at any readings of the
clock, resets, new graphs, other roots, snapshots; in between the host does what it likes to its
own state and cells. Whatever the calls, all positions that the engine holds stay in range, and so
no cycle and no snapshot ever meets one that leads nowhere.
-/

namespace BehaviorEngine

open Partial

variable {σ : Type}

/-! ### Calls -/

/-- A use of the engine, or a move of the host. -/
inductive Call (σ : Type) where
  | execute (now : Nat)
  | reset
  | create (source : String)
  | selectAgent (name : String)
  | selectRoot (name : String)
  | resetOutputs
  | activeBehaviors
  | host (f : World σ → World σ)

/-! ### Positions -/

/-- **All positions that belong to a graph in use are in range**: those in the graph, the root, the
selected agent, and the states and parameters of the options. -/
structure Loaded.InRange (environment : Environment σ) (l : Loaded) : Prop where
  program : Program.Fits ⟨environment, l.graph⟩
  root : l.root < l.graph.options.size
  agent : ∀ i ∈ l.agent, i < l.graph.agents.size
  length : l.options.length = l.graph.options.size
  options : ∀ i n a, l.graph.options.at? i = some n → l.options[i]? = some a → a.Fits n

/-- The option to start with is one of the graph. -/
theorem Program.Fits.defaultRoot_lt {environment : Environment σ} {g : Graph}
    (h : Program.Fits ⟨environment, g⟩) : g.defaultRoot < g.options.size := by
  unfold Graph.defaultRoot
  cases hr : g.agents.at? 0 with
  | none => exact h.nonempty
  | some root => exact h.agents root (Registry.at?_mem hr)

namespace Loaded.InRange

variable {environment : Environment σ} {l : Loaded}

theorem ofGraph {g : Graph} (h : Program.Fits ⟨environment, g⟩) :
    (Loaded.ofGraph g).InRange environment where
  program := h
  root := h.defaultRoot_lt
  agent := by
    intro i hi
    unfold Loaded.ofGraph at hi
    cases hg : g.agents.isEmpty with
    | true => simp [hg] at hi
    | false =>
      obtain rfl : 0 = i := by simpa [hg] using hi
      exact List.length_pos_iff.2 (by simpa [Registry.isEmpty, Loaded.ofGraph] using hg)
  length := by simp [Loaded.ofGraph, Registry.values_length]
  options := by
    intro i n a hn ha
    obtain ⟨n', hn', rfl⟩ := Option.map_eq_some_iff.1 (List.getElem?_map.symm.trans ha)
    obtain rfl := Option.some_inj.1 (hn.symm.trans hn')
    exact Activation.fits_ofNode (h.options n (Registry.at?_mem hn)).initial

theorem forget (h : l.InRange environment) :
    { l with options := l.options.map Activation.forget }.InRange environment where
  program := h.program
  root := h.root
  agent := h.agent
  length := by simpa using h.length
  options := by
    intro i n a hn ha
    obtain ⟨b, hb, rfl⟩ := Option.map_eq_some_iff.1 (List.getElem?_map.symm.trans ha)
    exact (h.options i n b hn hb).forget

end Loaded.InRange

/-! ### Operations -/

namespace Operate

variable {e : Engine σ}

theorem graphInUse_of_none (hl : e.loaded = none) :
    graphInUse.runOn e = (.error .noGraph, e) := by
  rw [graphInUse, Stateful.runOn_get_bind, hl]
  rfl

theorem graphInUse_of_some {l : Loaded} (hl : e.loaded = some l) :
    graphInUse.runOn e = (.ok l, e) := by
  rw [graphInUse, Stateful.runOn_get_bind, hl]
  rfl

section Root

variable {l : Loaded} {c : Cycle}

theorem runRoot_of_run {m : Machine σ} (hrun : Run.option ⟨e.environment, l.graph⟩ c
    l.graph.options.size l.root (e.machine l) = some ((), m)) :
    (runRoot l c).runOn e = (.ok (), e.withMachine l m) := by
  rw [runRoot, Stateful.runOn_get_bind]
  simp only [StateT.run, hrun]
  rfl

theorem runRoot_of_stop (hrun : Run.option ⟨e.environment, l.graph⟩ c l.graph.options.size l.root
    (e.machine l) = none) : (runRoot l c).runOn e = (.error .brokenReference, e) := by
  rw [runRoot, Stateful.runOn_get_bind]
  simp only [StateT.run, hrun]
  rfl

end Root

end Operate

namespace Engine

/-- All positions that an engine holds are in range. -/
structure InRange (e : Engine σ) : Prop where
  behaviors : e.behaviors.length = e.environment.behaviors.size
  loaded : ∀ l ∈ e.loaded, l.InRange e.environment

variable {e e' : Engine σ} {now : Nat}

theorem InRange.machine {l : Loaded} (h : e.InRange) (hl : e.loaded = some l) :
    (e.machine l).Fits ⟨e.environment, l.graph⟩ :=
  ⟨(h.loaded l hl).length, (h.loaded l hl).options, h.behaviors⟩

/-! ### Cycles -/

/-- A cycle at a reading of the clock takes the engine `e` to the engine `e'` and causes the given
events. -/
def Cycles (e : Engine σ) (now : Nat) (events : List Event) (e' : Engine σ) : Prop :=
  ∃ l m, e.loaded = some l ∧
    Runs ⟨e.environment, l.graph⟩ ⟨e.cycle + 1, now⟩ (.option l.root) 0
      { e.machine l with assigned := PerDomain.ofFn fun _ => [] } events m ∧
    e' = { e.withMachine l m with cycle := e.cycle + 1 }

section Execute

variable {l : Loaded}

theorem execute_of_none (hl : e.loaded = none) : e.execute now = (.error .noGraph, e) := by
  rw [execute, Operate.execute, Stateful.bind_of_error (Operate.graphInUse_of_none hl)]

/-- The root option runs once the outputs have been reset; then the cycle is counted. -/
theorem execute_of_run {m : Machine σ} (hl : e.loaded = some l)
    (hrun : Run.option ⟨e.environment, l.graph⟩ ⟨e.cycle + 1, now⟩ l.graph.options.size l.root
      (e.resetOutputs.machine l) = some ((), m)) :
    e.execute now = (.ok (), { e.withMachine l m with cycle := e.cycle + 1 }) := by
  rw [execute, Operate.execute, Stateful.bind_of_ok (Operate.graphInUse_of_some hl),
    Stateful.runOn_get_bind, Stateful.runOn_modify_bind,
    Stateful.bind_of_ok (Operate.runRoot_of_run hrun)]
  rfl

/-- A cycle that meets a position that leads nowhere has reset the outputs before. -/
theorem execute_of_stop (hl : e.loaded = some l)
    (hrun : Run.option ⟨e.environment, l.graph⟩ ⟨e.cycle + 1, now⟩ l.graph.options.size l.root
      (e.resetOutputs.machine l) = none) :
    e.execute now = (.error .brokenReference, e.resetOutputs) := by
  rw [execute, Operate.execute, Stateful.bind_of_ok (Operate.graphInUse_of_some hl),
    Stateful.runOn_get_bind, Stateful.runOn_modify_bind,
    Stateful.bind_of_error (Operate.runRoot_of_stop hrun)]

/-- **What executing does**: a cycle, or nothing without a graph. -/
theorem execute_cases (e : Engine σ) (now : Nat) :
    e.loaded = none ∧ e.execute now = (.error .noGraph, e) ∨
    (∃ events e', e.Cycles now events e' ∧ e.execute now = (.ok (), e')) ∨
    e.execute now = (.error .brokenReference, e.resetOutputs) := by
  cases hl : e.loaded with
  | none => exact .inl ⟨rfl, execute_of_none hl⟩
  | some l =>
    cases hrun : Run.option ⟨e.environment, l.graph⟩ ⟨e.cycle + 1, now⟩ l.graph.options.size l.root
      (e.resetOutputs.machine l) with
    | none => exact .inr (.inr (execute_of_stop hl hrun))
    | some r =>
      obtain ⟨⟨⟩, m⟩ := r
      obtain ⟨events, hruns⟩ := Run.follows_option _ _ _ _ 0 hrun
      exact .inr (.inl ⟨events, _, ⟨l, m, hl, hruns, rfl⟩, execute_of_run hl hrun⟩)

/-- Executing follows the rules of cycles. -/
theorem cycles_of_execute (h : e.execute now = (.ok (), e')) :
    ∃ events, e.Cycles now events e' := by
  obtain ⟨-, he⟩ | ⟨events, e₁, hc, he⟩ | he := e.execute_cases now
  · cases h.symm.trans he
  · cases h.symm.trans he
    exact ⟨events, hc⟩
  · cases h.symm.trans he

/-- **A cycle runs if there is a graph.** -/
theorem execute_succeeds (h : e.InRange) (hl : e.loaded = some l) (now : Nat) :
    ∃ e', e.execute now = (.ok (), e') := by
  have hm := h.machine hl
  obtain ⟨⟨⟩, m, hrun⟩ := Run.root_succeeds (c := ⟨e.cycle + 1, now⟩)
    (m := e.resetOutputs.machine l) (h.loaded l hl).program ⟨hm.length, hm.options, hm.behaviors⟩
    (h.loaded l hl).root
  exact ⟨_, execute_of_run hl hrun⟩

end Execute

/-- **A snapshot can be taken.** -/
theorem activeBehaviors?_succeeds (h : e.InRange) : ∃ r, e.activeBehaviors? = some r := by
  unfold activeBehaviors?
  cases hl : e.loaded with
  | none => exact ⟨_, rfl⟩
  | some l =>
    obtain ⟨r, hr⟩ := BehaviorEngine.activeBehaviors?_succeeds (h.loaded l hl).program
      (h.machine hl) e.cycle (h.loaded l hl).root e.world
    simp only
    split
    · exact ⟨_, rfl⟩
    · rw [show l.options = (e.machine l).options from rfl, hr]
      exact ⟨_, rfl⟩

/-! ### What a call does -/

/-- The engine after a call, whether the call fails or not. -/
def call (e : Engine σ) : Call σ → Engine σ
  | .execute now => (e.execute now).2
  | .reset => e.reset
  | .create source => (e.create source).2
  | .selectAgent name => (e.selectAgent name).2
  | .selectRoot name => (e.selectRoot name).2
  | .resetOutputs => e.resetOutputs
  | .activeBehaviors => e.activeBehaviors.2
  | .host f => { e with world := f e.world }

/-- The engine after some calls. -/
def after (e : Engine σ) (calls : List (Call σ)) : Engine σ := calls.foldl call e

/-- A cycle that is refused touches neither the graph nor what options and behaviors remember. -/
theorem call_execute_of_error {error : Misuse} (h : (e.execute now).1 = .error error) :
    ∃ assigned, e.call (.execute now) = { e with assigned } := by
  rw [call]
  obtain ⟨-, he⟩ | ⟨_, _, -, he⟩ | he := e.execute_cases now
  · exact ⟨e.assigned, by rw [he]⟩
  · simp [he] at h
  · exact ⟨_, by rw [he]; rfl⟩

/-- After a construction the engine has the graph, and nothing of it has run. -/
theorem loaded_after_create {e : Engine σ} {source : String} {g : Graph}
    (h : Graph.ofSource e.limits e.environment source = .ok g) :
    (e.after [.create source]).loaded = some
      { Loaded.ofGraph g with options := (Loaded.ofGraph g).options.map Activation.forget } := by
  simp [after, call, create, Engine.reset, h]

/-- **What a call can do to an engine.** -/
inductive Steps (e : Engine σ) : Engine σ → Prop
  | cycle {now : Nat} {events : List Event} {e' : Engine σ} (h : e.Cycles now events e') :
      Steps e e'
  | reset : Steps e e.reset
  | load {source : String} {g : Graph}
      (h : Graph.ofSource e.limits e.environment source = .ok g) :
      Steps e { e with loaded := some (Loaded.ofGraph g) }.reset
  | unload : Steps e { e with loaded := none }
  | selectAgent {l : Loaded} {name : String} {agent root : Nat} (hl : e.loaded = some l)
      (h : l.graph.agents.find? name = some (agent, root)) :
      Steps e { e with loaded := some { l with agent, root } }
  | selectRoot {l : Loaded} {name : String} {root : Nat} (hl : e.loaded = some l)
      (h : l.graph.options.position? name = some root) :
      Steps e { e with loaded := some { l with agent := none, root } }
  /-- Neither the graph nor what options and behaviors remember is touched. -/
  | touch {world : World σ} {assigned : PerDomain fun _ => List Nat} :
      Steps e { e with world, assigned }

section Selections

variable {l : Loaded} {name : String} {agent root : Nat}

theorem selectAgent_of_none (hl : e.loaded = none) :
    e.selectAgent name = (.error .noGraph, e) := by
  rw [selectAgent, Operate.selectAgent,
    Stateful.bind_of_error (Operate.graphInUse_of_none hl)]

theorem selectAgent_of_unknown (hl : e.loaded = some l) (hf : l.graph.agents.find? name = none) :
    e.selectAgent name = (.error (.unknownAgent name), e) := by
  rw [selectAgent, Operate.selectAgent, Stateful.bind_of_ok (Operate.graphInUse_of_some hl)]
  simp only [hf]
  rfl

/-- Selecting an agent changes nothing but the root and the agent. -/
theorem selectAgent_of_found (hl : e.loaded = some l)
    (hf : l.graph.agents.find? name = some (agent, root)) :
    e.selectAgent name = (.ok (), { e with loaded := some { l with agent, root } }) := by
  rw [selectAgent, Operate.selectAgent, Stateful.bind_of_ok (Operate.graphInUse_of_some hl)]
  simp only [hf, Operate.modifyLoaded, Stateful.runOn_modify_bind, Stateful.runOn_modify, hl]
  rfl

theorem selectRoot_of_none (hl : e.loaded = none) : e.selectRoot name = (.error .noGraph, e) := by
  rw [selectRoot, Operate.selectRoot, Stateful.bind_of_error (Operate.graphInUse_of_none hl)]

theorem selectRoot_of_unknown (hl : e.loaded = some l)
    (hf : l.graph.options.position? name = none) :
    e.selectRoot name = (.error (.unknownOption name), e) := by
  rw [selectRoot, Operate.selectRoot, Stateful.bind_of_ok (Operate.graphInUse_of_some hl)]
  simp only [hf]
  rfl

/-- Selecting a root option changes nothing but the root and the agent. -/
theorem selectRoot_of_found (hl : e.loaded = some l)
    (hf : l.graph.options.position? name = some root) :
    e.selectRoot name = (.ok (), { e with loaded := some { l with agent := none, root } }) := by
  rw [selectRoot, Operate.selectRoot, Stateful.bind_of_ok (Operate.graphInUse_of_some hl)]
  simp only [hf, Operate.modifyLoaded, Stateful.runOn_modify_bind, Stateful.runOn_modify, hl]
  rfl

/-- **What selecting an agent does**: it changes the root and the agent, or nothing if there is no
such agent. -/
theorem selectAgent_cases (e : Engine σ) (name : String) :
    ((∀ l ∈ e.loaded, l.graph.agents.find? name = none) ∧
      ∃ error, e.selectAgent name = (.error error, e)) ∨
    ∃ l agent root, e.loaded = some l ∧ l.graph.agents.find? name = some (agent, root) ∧
      e.selectAgent name = (.ok (), { e with loaded := some { l with agent, root } }) := by
  cases hl : e.loaded with
  | none => exact .inl ⟨nofun, .noGraph, selectAgent_of_none hl⟩
  | some l =>
    cases hf : l.graph.agents.find? name with
    | none =>
      refine .inl ⟨?_, .unknownAgent name, selectAgent_of_unknown hl hf⟩
      rintro _ ⟨⟩
      exact hf
    | some found => exact .inr ⟨l, found.1, found.2, rfl, hf, selectAgent_of_found hl hf⟩

/-- **What selecting a root option does**: it changes the root and the agent, or nothing if there is
no such option. -/
theorem selectRoot_cases (e : Engine σ) (name : String) :
    ((∀ l ∈ e.loaded, l.graph.options.position? name = none) ∧
      ∃ error, e.selectRoot name = (.error error, e)) ∨
    ∃ l root, e.loaded = some l ∧ l.graph.options.position? name = some root ∧
      e.selectRoot name = (.ok (), { e with loaded := some { l with agent := none, root } }) := by
  cases hl : e.loaded with
  | none => exact .inl ⟨nofun, .noGraph, selectRoot_of_none hl⟩
  | some l =>
    cases hf : l.graph.options.position? name with
    | none =>
      refine .inl ⟨?_, .unknownOption name, selectRoot_of_unknown hl hf⟩
      rintro _ ⟨⟩
      exact hf
    | some root => exact .inr ⟨l, root, rfl, hf, selectRoot_of_found hl hf⟩

end Selections

/-- A snapshot changes nothing but the host. -/
theorem activeBehaviors?_eq_some {entries : List ActiveBehavior}
    (h : e.activeBehaviors? = some (entries, e')) : e' = { e with world := e'.world } := by
  unfold activeBehaviors? at h
  cases hl : e.loaded with
  | none =>
    simp only [hl, Option.some.injEq, Prod.mk.injEq] at h
    rw [← h.2, ← hl]
  | some l =>
    simp only [hl] at h
    split at h
    · simp only [Option.some.injEq, Prod.mk.injEq] at h
      rw [← h.2, ← hl]
    · obtain ⟨r, -, h⟩ := Option.bind_eq_some_iff.1 h
      simp only [Option.pure_def, Option.some.injEq, Prod.mk.injEq] at h
      rw [← h.2, ← hl]

theorem activeBehaviors_eq (e : Engine σ) :
    e.activeBehaviors.2 = { e with world := e.activeBehaviors.2.world } := by
  unfold activeBehaviors
  cases h : e.activeBehaviors? with
  | none => rfl
  | some r => exact activeBehaviors?_eq_some h

/-- Every call takes one of the steps. -/
theorem steps_call (e : Engine σ) (c : Call σ) : e.Steps (e.call c) := by
  have hself : e.Steps e := .touch
  cases c with
  | execute now =>
    rw [call]
    obtain ⟨-, h⟩ | ⟨events, e', hc, h⟩ | h := e.execute_cases now
    · rw [h]
      exact hself
    · rw [h]
      exact .cycle hc
    · rw [h]
      exact .touch
  | reset => exact .reset
  | create source =>
    rw [call, Engine.create]
    cases h : Graph.ofSource e.limits e.environment source with
    | error => exact .unload
    | ok g => exact .load h
  | selectAgent name =>
    rw [call]
    obtain ⟨-, _, h⟩ | ⟨l, agent, root, hl, hf, h⟩ := e.selectAgent_cases name
    · rw [h]
      exact hself
    · rw [h]
      exact .selectAgent hl hf
  | selectRoot name =>
    rw [call]
    obtain ⟨-, _, h⟩ | ⟨l, root, hl, hf, h⟩ := e.selectRoot_cases name
    · rw [h]
      exact hself
    · rw [h]
      exact .selectRoot hl hf
  | resetOutputs => exact .touch
  | activeBehaviors =>
    rw [call, e.activeBehaviors_eq]
    exact .touch
  | host f => exact .touch

theorem Steps.environment_eq (h : e.Steps e') : e'.environment = e.environment := by
  cases h with
  | cycle hc =>
    obtain ⟨_, _, -, -, rfl⟩ := hc
    rfl
  | reset | load | unload | selectAgent | selectRoot | touch => rfl

/-- Calls leave the environment as it is. -/
theorem after_environment (e : Engine σ) (calls : List (Call σ)) :
    (e.after calls).environment = e.environment := by
  induction calls generalizing e with
  | nil => rfl
  | cons c calls ih => exact (ih (e.call c)).trans (e.steps_call c).environment_eq

/-! ### Every call keeps positions in range -/

namespace InRange

theorem new (limits : Limits) (environment : Environment σ) (world : World σ) :
    (Engine.new limits environment world).InRange :=
  ⟨by simp [Engine.new, Registry.values_length], nofun⟩

theorem reset (h : e.InRange) : e.reset.InRange := by
  refine ⟨by simpa [Engine.reset] using h.behaviors, fun l hl => ?_⟩
  obtain ⟨l₀, hl₀, rfl⟩ := Option.map_eq_some_iff.1 hl
  exact (h.loaded l₀ hl₀).forget

theorem step (h : e.InRange) (hs : e.Steps e') : e'.InRange := by
  cases hs with
  | cycle hc =>
    obtain ⟨l, m, hl, hruns, rfl⟩ := hc
    have hl' := h.loaded l hl
    have hm := hruns.fits (p := ⟨e.environment, l.graph⟩) ⟨hl'.length, hl'.options, h.behaviors⟩
    refine ⟨hm.behaviors, ?_⟩
    rintro _ ⟨⟩
    exact ⟨hl'.program, hl'.root, hl'.agent, hm.length, hm.options⟩
  | reset => exact h.reset
  | @load _ g hg =>
    have hloaded : { e with loaded := some (Loaded.ofGraph g) }.InRange := by
      refine ⟨h.behaviors, ?_⟩
      rintro _ ⟨⟩
      exact .ofGraph (Graph.fits_of_ofSource hg)
    exact hloaded.reset
  | unload => exact ⟨h.behaviors, nofun⟩
  | selectAgent hl hf =>
    have hl' := h.loaded _ hl
    have hentry := Registry.find?_eq_some_iff.1 hf
    refine ⟨h.behaviors, ?_⟩
    rintro _ ⟨⟩
    refine ⟨hl'.program, hl'.program.agents _ ?_, ?_, hl'.length, hl'.options⟩
    · exact Registry.at?_mem (by rw [Registry.at?_eq, hentry]; rfl)
    · rintro _ ⟨⟩
      exact Registry.lt_size hentry
  | selectRoot hl hf =>
    have hl' := h.loaded _ hl
    refine ⟨h.behaviors, ?_⟩
    rintro _ ⟨⟩
    refine ⟨hl'.program, ?_, nofun, hl'.length, hl'.options⟩
    rw [← Registry.names_length]
    exact (List.getElem?_eq_some_iff.1 (Registry.position?_eq_some_iff.1 hf)).1
  | touch => exact ⟨h.behaviors, h.loaded⟩

theorem after (h : e.InRange) (calls : List (Call σ)) : (e.after calls).InRange := by
  induction calls generalizing e with
  | nil => exact h
  | cons c calls ih => exact ih (h.step (e.steps_call c))

end InRange

/-- **A graph in use never fails.** Whatever calls an engine has taken, all positions that it holds
are in range, cycles run whenever there is a graph, and snapshots can always be taken. -/
theorem calls_never_fail (limits : Limits) (environment : Environment σ) (world : World σ)
    (calls : List (Call σ)) :
    ((Engine.new limits environment world).after calls).InRange ∧
    (∀ now, (((Engine.new limits environment world).after calls).execute now).1.isOk =
      ((Engine.new limits environment world).after calls).loaded.isSome) ∧
    ((Engine.new limits environment world).after calls).activeBehaviors?.isSome := by
  have h := (InRange.new limits environment world).after calls
  generalize (Engine.new limits environment world).after calls = e at h ⊢
  refine ⟨h, fun now => ?_, ?_⟩
  · cases hl : e.loaded with
    | none =>
      rw [execute_of_none hl]
      rfl
    | some l =>
      obtain ⟨e', he⟩ := execute_succeeds h hl now
      rw [he]
      rfl
  · obtain ⟨r, hr⟩ := activeBehaviors?_succeeds h
    rw [hr]
    rfl

end Engine

end BehaviorEngine
