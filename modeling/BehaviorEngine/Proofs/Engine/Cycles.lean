import BehaviorEngine.Proofs.Engine.Calls
import BehaviorEngine.Proofs.Graph.Reorder

/-!
Cycles of an engine. Whatever was called before, nothing has run in the cycle that comes next, so
the cycle runs exactly what can be reached from the root, whatever the order of the actions.
-/

namespace BehaviorEngine

namespace Engine

variable {σ : Type} {e e' : Engine σ} {now : Nat} {events : List Event}

/-! ### The past -/

/-- **What is remembered lies in the past**: no option and no basic behavior has run in a cycle that
is still to come. -/
structure Past (e : Engine σ) : Prop where
  options : ∀ l ∈ e.loaded, ∀ a ∈ l.options, ∀ n ∈ a.lastCycle, n ≤ e.cycle
  behaviors : ∀ last ∈ e.behaviors, ∀ n ∈ last, n ≤ e.cycle

namespace Past

theorem new (limits : Limits) (environment : Environment σ) (world : World σ) :
    (Engine.new limits environment world).Past := by
  refine ⟨nofun, fun last hlast => ?_⟩
  obtain ⟨_, -, rfl⟩ := List.mem_map.1 hlast
  exact nofun

theorem reset (e : Engine σ) : e.reset.Past := by
  refine ⟨fun l hl a ha n hn => ?_, fun last hlast n hn => ?_⟩
  · obtain ⟨l₀, -, rfl⟩ := Option.map_eq_some_iff.1 hl
    obtain ⟨a₀, -, rfl⟩ := List.mem_map.1 ha
    cases hn
  · obtain ⟨_, -, rfl⟩ := List.mem_map.1 hlast
    cases hn

theorem step (h : e.Past) (hs : e.Steps e') : e'.Past := by
  cases hs with
  | cycle hc =>
    obtain ⟨l, m, hl, hruns, rfl⟩ := hc
    refine ⟨?_, fun last hlast n hn => ?_⟩
    · rintro _ ⟨⟩ a ha n hn
      obtain ⟨i, hi⟩ := List.mem_iff_getElem?.1 ha
      cases hr : a.ranIn (e.cycle + 1) with
      | true =>
        have hlast : a.lastCycle = some (e.cycle + 1) := of_decide_eq_true hr
        rw [hlast] at hn
        cases hn
        exact Nat.le_refl _
      | false =>
        have := List.mem_of_getElem? (hruns.unran hi hr)
        exact (h.options l hl a this n hn).trans (Nat.le_succ _)
    · obtain ⟨b, hb⟩ := List.mem_iff_getElem?.1 hlast
      by_cases hr : last = some (e.cycle + 1)
      · subst hr
        cases hn
        exact Nat.le_refl _
      · have := List.mem_of_getElem? (hruns.unbehaved hb hr)
        exact (h.behaviors last this n hn).trans (Nat.le_succ _)
  | reset => exact .reset e
  | load => exact .reset _
  | unload => exact ⟨nofun, h.behaviors⟩
  | @selectAgent l _ _ _ hl =>
    refine ⟨?_, h.behaviors⟩
    rintro _ ⟨⟩
    exact h.options l hl
  | @selectRoot l _ _ hl =>
    refine ⟨?_, h.behaviors⟩
    rintro _ ⟨⟩
    exact h.options l hl
  | touch => exact ⟨h.options, h.behaviors⟩

theorem after (h : e.Past) (calls : List (Call σ)) : (e.after calls).Past := by
  induction calls generalizing e with
  | nil => exact h
  | cons c calls ih => exact ih (h.step (e.steps_call c))

/-- No option has run in the cycle that comes next. -/
theorem not_ran {l : Loaded} (h : e.Past) (hl : e.loaded = some l) (now i : Nat) :
    ¬ Machine.Ran (e.machine l) ⟨e.cycle + 1, now⟩ i := by
  rintro ⟨a, ha, hr⟩
  have := h.options l hl a (List.mem_of_getElem? ha) (e.cycle + 1) (of_decide_eq_true hr)
  omega

end Past

/-! ### What cycles run -/

/-- A cycle runs what can be reached from the root; what ran is remembered. -/
theorem Cycles.runsReachable {l : Loaded} (hp : e.Past) (hl : e.loaded = some l)
    (hc : e.Cycles now events e') :
    RunsReachable l.graph l.options (e.cycle + 1) l.root events ∧
      (∀ l' ∈ e'.loaded, ∀ i a, l'.options[i]? = some a →
        (a.ranIn e'.cycle = true ↔ i ∈ entered events)) ∧
      ∀ b, e'.behaviors[b]? = some (some e'.cycle) ↔ b ∈ behaved events := by
  obtain ⟨l₀, m, hl₀, hruns, rfl⟩ := hc
  obtain rfl := Option.some_inj.1 (hl.symm.trans hl₀)
  have hoptions := hp.not_ran hl now
  have hbehaviors : ∀ b, ¬ Machine.Behaved (e.machine l) ⟨e.cycle + 1, now⟩ b := by
    intro b hb
    have := hp.behaviors _ (List.mem_of_getElem? hb) (e.cycle + 1) rfl
    omega
  refine ⟨hruns.runsReachable hoptions hbehaviors, ?_, fun b => ?_⟩
  · rintro _ ⟨⟩ i a ha
    rw [hruns.mem_entered_iff, Machine.ran_iff ha]
    exact ⟨fun hr => ⟨hoptions i, hr⟩, fun h => h.2⟩
  · rw [hruns.mem_behaved_iff]
    exact ⟨fun hb => ⟨hbehaviors b, hb⟩, fun h => h.2⟩

/-! ### The order of actions -/

/-- The engine with another graph in the place of the one in use. -/
def withGraph (e : Engine σ) (g : Graph) : Engine σ :=
  { e with loaded := e.loaded.map fun l => { l with graph := g } }

theorem InRange.withGraph {l : Loaded} {g : Graph} (h : e.InRange) (hl : e.loaded = some l)
    (hg : l.graph.Reorders g) : (e.withGraph g).InRange := by
  refine ⟨h.behaviors, fun l' hl' => ?_⟩
  have hlr := h.loaded l hl
  obtain ⟨l₀, hl₀, rfl⟩ := Option.map_eq_some_iff.1 hl'
  obtain rfl := Option.some_inj.1 (hl.symm.trans hl₀)
  refine ⟨hg.fits hlr.program, by rw [hg.size_eq]; exact hlr.root,
    by rw [hg.agents]; exact hlr.agent, by rw [hg.size_eq]; exact hlr.length, ?_⟩
  intro i n' a hn' ha
  obtain ⟨n, hn, hr⟩ := hg.symm.node hn'
  exact hr.symm.fits (hlr.options i n a hn ha)

theorem Past.withGraph (h : e.Past) (g : Graph) : (e.withGraph g).Past := by
  refine ⟨fun l hl => ?_, h.behaviors⟩
  obtain ⟨l₀, hl₀, rfl⟩ := Option.map_eq_some_iff.1 hl
  exact h.options l₀ hl₀

/-- **A cycle terminates and runs exactly what can be reached.** Whatever calls an engine has taken,
if there is a graph, the cycle runs: it enters the options that can be reached from the root, each
once and in the state in which it is, runs the basic behaviors that these states name, each once,
and remembers them. In a graph with the actions in another order, the same runs. -/
theorem execute_runs_reachable (limits : Limits) (environment : Environment σ) (world : World σ)
    (calls : List (Call σ)) (l : Loaded)
    (hl : ((Engine.new limits environment world).after calls).loaded = some l) (now : Nat) :
    ∃ e' events, ((Engine.new limits environment world).after calls).execute now = (.ok (), e') ∧
      ((Engine.new limits environment world).after calls).Cycles now events e' ∧
      RunsReachable l.graph l.options
        (((Engine.new limits environment world).after calls).cycle + 1) l.root events ∧
      (∀ l' ∈ e'.loaded, ∀ i a, l'.options[i]? = some a →
        (a.ranIn e'.cycle = true ↔ i ∈ entered events)) ∧
      (∀ b, e'.behaviors[b]? = some (some e'.cycle) ↔ b ∈ behaved events) ∧
      ∀ g, l.graph.Reorders g → ∃ e'' events',
        (((Engine.new limits environment world).after calls).withGraph g).execute now =
          (.ok (), e'') ∧
        (((Engine.new limits environment world).after calls).withGraph g).Cycles now events' e'' ∧
        (entered events').Perm (entered events) ∧ (behaved events').Perm (behaved events) := by
  have hr := (InRange.new limits environment world).after calls
  have hp := (Past.new limits environment world).after calls
  generalize (Engine.new limits environment world).after calls = e at hl hr hp ⊢
  obtain ⟨e', he⟩ := execute_succeeds hr hl now
  obtain ⟨events, hc⟩ := cycles_of_execute he
  obtain ⟨hruns, hoptions, hbehaviors⟩ := hc.runsReachable hp hl
  refine ⟨e', events, he, hc, hruns, hoptions, hbehaviors, fun g hg => ?_⟩
  have hl' : (e.withGraph g).loaded = some { l with graph := g } := by simp [withGraph, hl]
  obtain ⟨e'', he''⟩ := execute_succeeds (hr.withGraph hl hg) hl' now
  obtain ⟨events', hc'⟩ := cycles_of_execute he''
  exact ⟨e'', events', he'', hc', hg.perm hruns (hc'.runsReachable (hp.withGraph g) hl').1⟩

/-- Two options that activate each other, the first one also itself. -/
def mutualActivation : String :=
  "2 a 0 b 0 a 1 s s s 0 3 o b 0 o a 0 o b 0 t s b 1 s s s 0 1 o a 0 t s 0"

theorem execute_runs_reachable_mutual : ∃ l e' events,
    ((Engine.new Limits.standard Environment.empty (⟨Cells.empty, ()⟩ : World Unit)).after
      [.create mutualActivation]).loaded = some l ∧
    ((Engine.new Limits.standard Environment.empty (⟨Cells.empty, ()⟩ : World Unit)).after
      [.create mutualActivation]).Cycles 7 events e' ∧
    RunsReachable l.graph l.options
      (((Engine.new Limits.standard Environment.empty (⟨Cells.empty, ()⟩ : World Unit)).after
        [.create mutualActivation]).cycle + 1) l.root events := by
  have hg : (Graph.ofSource Limits.standard (Environment.empty : Environment Unit)
      mutualActivation).toOption.isSome = true := by decide +kernel
  cases h : Graph.ofSource Limits.standard (Environment.empty : Environment Unit)
      mutualActivation with
  | error => simp [h, Except.toOption] at hg
  | ok g =>
    have hl := loaded_after_create
      (e := Engine.new Limits.standard Environment.empty (⟨Cells.empty, ()⟩ : World Unit)) h
    obtain ⟨e', events, -, hc, hr, -⟩ := execute_runs_reachable _ _ _ _ _ hl 7
    exact ⟨_, e', events, hl, hc, hr⟩

end Engine

end BehaviorEngine
