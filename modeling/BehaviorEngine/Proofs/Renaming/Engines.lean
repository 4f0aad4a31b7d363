import BehaviorEngine.Proofs.Engine.Refusals
import BehaviorEngine.Proofs.Renaming.Constructions
import BehaviorEngine.Proofs.Renaming.Snapshots

/-!
Engines do not depend on the order of registration. Two engines whose environments have the same
entries in another order answer every call alike, run the same cycles, and ask the same of their
hosts in the same order, whatever calls they have taken.
-/

namespace BehaviorEngine

variable {σ : Type} {ρ : Renaming}

/-! ### Graphs in use -/

/-- An option starts the same in both environments. -/
theorem Activation.ofNode_rename (n : Graph.Node) :
    Activation.ofNode (n.rename ρ) = Activation.ofNode n := by
  have hclocks : (n.rename ρ).states.values.map (fun _ => (⟨0, 0⟩ : StateClock)) =
      n.states.values.map fun _ => ⟨0, 0⟩ := by
    rw [Graph.Node.rename, Registry.values_map, List.map_map]
    rfl
  have hparameters : (PerDomain.ofFn fun d =>
        ((n.rename ρ).parameters.get d).values.map fun _ => d.initial) =
      PerDomain.ofFn fun d => (n.parameters.get d).values.map fun _ => d.initial := by
    refine PerDomain.ext_get fun d => ?_
    rw [PerDomain.get_ofFn, PerDomain.get_ofFn, Graph.Node.rename, Parameters.get_rename,
      Registry.values_map, List.map_map]
    rfl
  rw [ofNode, ofNode, hclocks, hparameters]
  rfl

/-- A graph in use, in the other environment. -/
def Loaded.rename (ρ : Renaming) (l : Loaded) : Loaded := { l with graph := l.graph.rename ρ }

theorem Loaded.ofGraph_rename (g : Graph) :
    Loaded.ofGraph (g.rename ρ) = (Loaded.ofGraph g).rename ρ := by
  have hoptions : (g.rename ρ).options.values.map Activation.ofNode =
      g.options.values.map Activation.ofNode := by
    rw [Graph.rename, Registry.values_map, List.map_map]
    exact congrArg (List.map · _) (funext Activation.ofNode_rename)
  rw [ofGraph, hoptions]
  rfl

/-! ### Answers -/

/-- What a caller is told. -/
inductive Answer where
  | done
  | misuse (reason : Misuse)
  | faulty (error : ConstructionError)
  | snapshot (entries : List ActiveBehavior)

/-- The answer to a call that may fail. -/
def Answer.ofExcept {ε α : Type} (failed : ε → Answer) : Except ε α → Answer
  | .ok _ => .done
  | .error e => failed e

namespace Engine

/-- What an engine answers to a call. -/
def answer (e : Engine σ) : Call σ → Answer
  | .execute now => .ofExcept .misuse (e.execute now).1
  | .create source => .ofExcept .faulty (e.create source).1
  | .selectAgent name => .ofExcept .misuse (e.selectAgent name).1
  | .selectRoot name => .ofExcept .misuse (e.selectRoot name).1
  | .activeBehaviors => .snapshot e.activeBehaviors.1
  | .reset | .resetOutputs | .host _ => .done

section Snapshots

variable {e : Engine σ}

/-- Before the first cycle and without a graph nothing is shown. -/
theorem activeBehaviors?_of_idle (h : e.loaded = none ∨ e.cycle = 0) :
    e.activeBehaviors? = some ([], e) := by
  unfold activeBehaviors?
  cases hl : e.loaded with
  | none => rfl
  | some l =>
    rcases h with h | h
    · cases hl.symm.trans h
    · exact if_pos h

/-- Else a snapshot walks the graph, and leaves the host as the walk does. -/
theorem activeBehaviors?_of_loaded {l : Loaded} (hl : e.loaded = some l) (hc : e.cycle ≠ 0) :
    e.activeBehaviors? =
      (BehaviorEngine.activeBehaviors? ⟨e.environment, l.graph⟩ l.options e.cycle l.root
        e.world).map fun r => (r.1, { e with world := r.2 }) := by
  unfold activeBehaviors?
  split
  · next l' hl' =>
    obtain rfl := Option.some_inj.1 (hl.symm.trans hl')
    rw [if_neg hc]
    exact Option.map_eq_bind.symm
  · next hl' => cases hl.symm.trans hl'

end Snapshots

/-! ### Engines -/

/-- **The same engine in another environment**: the host is in the same state, the same graph is in
use, and the same is remembered of options, call sites, behaviors and outputs. -/
structure Renames (ρ : Renaming) (e e' : Engine σ) : Prop where
  limits : e'.limits = e.limits
  environment : e.environment.Renames ρ e'.environment
  world : e'.world = e.world
  loaded : e'.loaded = e.loaded.map (Loaded.rename ρ)
  cycle : e'.cycle = e.cycle
  behaviors : ∀ b, e'.behaviors[ρ.behavior b]? = e.behaviors[b]?
  assigned : ∀ d, e'.assigned.get d = (e.assigned.get d).map (ρ.output d)

variable {e e' e₁ e₁' : Engine σ} {now : Nat} {trace trace' : List (Moment σ)}

namespace Renames

theorem new {environment environment' : Environment σ} (h : environment.Renames ρ environment')
    (limits : Limits) (world : World σ) :
    (Engine.new limits environment world).Renames ρ (Engine.new limits environment' world) where
  limits := rfl
  environment := h
  world := rfl
  loaded := rfl
  cycle := rfl
  behaviors b := by
    have hb := h.behaviors.at? b
    rw [Registry.at?, Registry.at?] at hb
    rw [Engine.new, Engine.new, List.getElem?_map, List.getElem?_map, hb, Option.map_map]
    rfl
  assigned d := by
    rw [Engine.new, Engine.new, PerDomain.get_ofFn, List.map_nil]

theorem reset (h : e.Renames ρ e') : e.reset.Renames ρ e'.reset :=
  { h with
    loaded := by
      rw [Engine.reset, Engine.reset, h.loaded, Option.map_map, Option.map_map]
      rfl
    behaviors := fun b => by
      rw [Engine.reset, Engine.reset, List.getElem?_map, List.getElem?_map, h.behaviors b] }

theorem resetOutputs (h : e.Renames ρ e') : e.resetOutputs.Renames ρ e'.resetOutputs :=
  { h with
    assigned := fun d => by
      rw [Engine.resetOutputs, Engine.resetOutputs, PerDomain.get_ofFn, List.map_nil] }

theorem program (h : e.Renames ρ e') (l : Loaded) :
    Program.Renames ρ ⟨e.environment, l.graph⟩ ⟨e'.environment, (l.rename ρ).graph⟩ :=
  ⟨h.environment, rfl⟩

/-- The graphs in use. -/
theorem loaded_eq_some (h : e.Renames ρ e') {l : Loaded} (hl : e.loaded = some l) :
    e'.loaded = some (l.rename ρ) := by
  rw [h.loaded, hl, Option.map_some]

theorem loaded_eq_none (h : e.Renames ρ e') (hl : e.loaded = none) : e'.loaded = none := by
  rw [h.loaded, hl, Option.map_none]

/-- **A cycle runs alike in both environments.** -/
theorem traced (h : e.Renames ρ e') {l : Loaded} (hl : e.loaded = some l)
    (ht : e.Traced now trace e₁) (ht' : e'.Traced now trace' e₁') :
    List.Forall₂ (Moment.Renames ρ) trace trace' ∧ e₁.Renames ρ e₁' := by
  obtain ⟨m, htrace, rfl⟩ := ht.traces hl
  obtain ⟨m', htrace', rfl⟩ := ht'.traces (h.loaded_eq_some hl)
  have hm : Machine.Renames ρ { e.machine l with assigned := PerDomain.ofFn fun _ => [] }
      { e'.machine (l.rename ρ) with assigned := PerDomain.ofFn fun _ => [] } :=
    ⟨congrArg (Store.mk · l.memory) h.world, rfl, h.behaviors, fun d => by
      rw [PerDomain.get_ofFn, List.map_nil]⟩
  rw [h.cycle] at htrace'
  obtain ⟨hmoments, hend⟩ := htrace.renames (h.program l) htrace' hm
  refine ⟨hmoments, h.limits, h.environment, congrArg Store.world hend.store, ?_,
    congrArg (· + 1) h.cycle, hend.behaviors, hend.assigned⟩
  rw [withMachine, withMachine, hend.options, hend.store, Option.map_some]
  rfl

/-- **Snapshots are the same**, and leave the same engine. -/
theorem activeBehaviors (h : e.Renames ρ e') : e'.activeBehaviors.1 = e.activeBehaviors.1 ∧
    e.activeBehaviors.2.Renames ρ e'.activeBehaviors.2 := by
  rw [Engine.activeBehaviors, Engine.activeBehaviors]
  by_cases hc : e.cycle = 0
  · rw [activeBehaviors?_of_idle (.inr hc), activeBehaviors?_of_idle (.inr (h.cycle.trans hc))]
    exact ⟨rfl, h⟩
  · have hc' : e'.cycle ≠ 0 := by
      rw [h.cycle]
      exact hc
    cases hl : e.loaded with
    | none =>
      rw [activeBehaviors?_of_idle (.inl hl), activeBehaviors?_of_idle (.inl (h.loaded_eq_none hl))]
      exact ⟨rfl, h⟩
    | some l =>
      have hwalk := activeBehaviors?_rename (h.program l) l.options e.cycle l.root e.world
      rw [activeBehaviors?_of_loaded hl hc, activeBehaviors?_of_loaded (h.loaded_eq_some hl) hc',
        h.cycle, h.world]
      rw [show (l.rename ρ).options = l.options from rfl,
        show (l.rename ρ).root = l.root from rfl, hwalk]
      cases BehaviorEngine.activeBehaviors? ⟨e.environment, l.graph⟩ l.options e.cycle l.root
          e.world with
      | none => exact ⟨rfl, h⟩
      | some r => exact ⟨rfl, { h with world := rfl, cycle := rfl }⟩

/-- Two calls are answered alike, and leave the same engine. -/
def OutcomesAlike {α : Type} (ρ : Renaming) (x y : α × Engine σ) : Prop :=
  y.1 = x.1 ∧ x.2.Renames ρ y.2

/-- A source is taken or refused alike. -/
theorem create (h : e.Renames ρ e') (source : String) :
    OutcomesAlike ρ (e.create source) (e'.create source) := by
  have hsource : Graph.ofSource e'.limits e'.environment source =
      (Graph.ofSource e.limits e.environment source).map (Graph.rename ρ) := by
    rw [h.limits, Graph.ofSource_rename h.environment]
  rw [Engine.create, Engine.create, hsource]
  cases Graph.ofSource e.limits e.environment source with
  | error error => exact ⟨rfl, { h with loaded := rfl }⟩
  | ok g =>
    have hloaded : { e with loaded := some (Loaded.ofGraph g) }.Renames ρ
        { e' with loaded := some (Loaded.ofGraph (g.rename ρ)) } :=
      { h with loaded := by rw [Loaded.ofGraph_rename, Option.map_some] }
    exact ⟨rfl, hloaded.reset⟩

theorem execute (h : e.Renames ρ e') (hr : e.InRange) (hr' : e'.InRange) (now : Nat) :
    OutcomesAlike ρ (e.execute now) (e'.execute now) := by
  cases hl : e.loaded with
  | none =>
    rw [execute_of_none hl, execute_of_none (h.loaded_eq_none hl)]
    exact ⟨rfl, h⟩
  | some l =>
    obtain ⟨trace, e₁, ht⟩ := hr.exists_traced hl now
    obtain ⟨trace', e₁', ht'⟩ := hr'.exists_traced (h.loaded_eq_some hl) now
    rw [ht.1, ht'.1]
    exact ⟨rfl, (h.traced hl ht ht').2⟩

theorem selectAgent (h : e.Renames ρ e') (name : String) :
    OutcomesAlike ρ (e.selectAgent name) (e'.selectAgent name) := by
  cases hl : e.loaded with
  | none =>
    rw [selectAgent_of_none hl, selectAgent_of_none (h.loaded_eq_none hl)]
    exact ⟨rfl, h⟩
  | some l =>
    have hl' := h.loaded_eq_some hl
    cases hf : l.graph.agents.find? name with
    | none =>
      rw [selectAgent_of_unknown hl hf, selectAgent_of_unknown hl' hf]
      exact ⟨rfl, h⟩
    | some found =>
      rw [selectAgent_of_found hl hf, selectAgent_of_found hl' hf]
      exact ⟨rfl, { h with loaded := rfl }⟩

theorem selectRoot (h : e.Renames ρ e') (name : String) :
    OutcomesAlike ρ (e.selectRoot name) (e'.selectRoot name) := by
  cases hl : e.loaded with
  | none =>
    rw [selectRoot_of_none hl, selectRoot_of_none (h.loaded_eq_none hl)]
    exact ⟨rfl, h⟩
  | some l =>
    have hl' := h.loaded_eq_some hl
    have hposition : (l.graph.rename ρ).options.position? name =
        l.graph.options.position? name := Registry.position?_map _
    cases hf : l.graph.options.position? name with
    | none =>
      rw [selectRoot_of_unknown hl hf, selectRoot_of_unknown hl' (hposition.trans hf)]
      exact ⟨rfl, h⟩
    | some root =>
      rw [selectRoot_of_found hl hf, selectRoot_of_found hl' (hposition.trans hf)]
      exact ⟨rfl, { h with loaded := rfl }⟩

/-- **Every call is answered alike.** -/
theorem answer_eq (h : e.Renames ρ e') (hr : e.InRange) (hr' : e'.InRange) (c : Call σ) :
    e'.answer c = e.answer c := by
  cases c with
  | execute now => exact congrArg (Answer.ofExcept .misuse) (h.execute hr hr' now).1
  | create source => exact congrArg (Answer.ofExcept .faulty) (h.create source).1
  | selectAgent name => exact congrArg (Answer.ofExcept .misuse) (h.selectAgent name).1
  | selectRoot name => exact congrArg (Answer.ofExcept .misuse) (h.selectRoot name).1
  | activeBehaviors => exact congrArg Answer.snapshot h.activeBehaviors.1
  | reset | resetOutputs | host => rfl

/-- **Every call leaves the same engine.** -/
theorem call (h : e.Renames ρ e') (hr : e.InRange) (hr' : e'.InRange) (c : Call σ) :
    (e.call c).Renames ρ (e'.call c) := by
  cases c with
  | execute now => exact (h.execute hr hr' now).2
  | create source => exact (h.create source).2
  | selectAgent name => exact (h.selectAgent name).2
  | selectRoot name => exact (h.selectRoot name).2
  | activeBehaviors => exact h.activeBehaviors.2
  | reset => exact h.reset
  | resetOutputs => exact h.resetOutputs
  | host f => exact { h with world := congrArg f h.world }

/-- **The same calls leave the same engine**, however many they are. -/
theorem after (h : e.Renames ρ e') (hr : e.InRange) (hr' : e'.InRange) (calls : List (Call σ)) :
    (e.after calls).Renames ρ (e'.after calls) := by
  induction calls generalizing e e' with
  | nil => exact h
  | cons c calls ih =>
    exact ih (h.call hr hr' c) (hr.step (e.steps_call c)) (hr'.step (e'.steps_call c))

/-! ### What can be seen -/

variable {d : Domain} {name : String}

/-- **An output symbol has the same value under its name**, and was assigned in both engines or in
neither. -/
theorem output (h : e.Renames ρ e') {k : Nat} {symbol : OutputSymbol σ d}
    (hk : (e.environment.symbols.outputs.get d).find? name = some (k, symbol)) :
    ∃ k' symbol', (e'.environment.symbols.outputs.get d).find? name = some (k', symbol') ∧
      e'.wasSet d k' = e.wasSet d k ∧ (e'.readOutput symbol').1 = (e.readOutput symbol).1 := by
  refine ⟨ρ.output d k, symbol.rename ρ, ?_, ?_, ?_⟩
  · rw [(h.environment.symbols.outputs d).find? name, hk]
    rfl
  · rw [wasSet, wasSet, h.assigned d, Bool.eq_iff_iff, List.contains_iff_mem,
      List.contains_iff_mem]
    exact List.mem_map_of_injective (ρ.output d).injective
  · rw [readOutput, readOutput, h.world]
    rfl

/-- **A basic behavior ran under its name in both engines or in neither.** -/
theorem behavior (h : e.Renames ρ e') {b : Nat} {behavior : BasicBehavior σ}
    (hb : e.environment.behaviors.find? name = some (b, behavior)) :
    ∃ b' behavior', e'.environment.behaviors.find? name = some (b', behavior') ∧
      e'.behaviorRan b' = e.behaviorRan b := by
  refine ⟨ρ.behavior b, behavior.rename ρ, ?_, ?_⟩
  · rw [h.environment.behaviors.find? name, hb]
    rfl
  · rw [behaviorRan, behaviorRan, h.behaviors b, h.cycle]

end Renames

end Engine

end BehaviorEngine
