import BehaviorEngine.Proofs.Engine.Continuity
import BehaviorEngine.Proofs.Snapshot.Replay

/-!
Snapshots of an engine. Right after a cycle, whatever calls the engine has taken before, the
snapshot lists what the cycle did, in the order in which it was done.
-/

namespace BehaviorEngine

namespace Engine

variable {σ : Type} {e e' : Engine σ} {now : Nat} {trace : List (Moment σ)}

/-- After the first cycle the snapshot is the walk from the root. -/
theorem activeBehaviors_eq_walk {l : Loaded} {entries : List ActiveBehavior} {world : World σ}
    (hl : e.loaded = some l) (hc : e.cycle ≠ 0)
    (h : BehaviorEngine.activeBehaviors? ⟨e.environment, l.graph⟩ l.options e.cycle l.root e.world =
      some (entries, world)) : e.activeBehaviors = (entries, { e with world }) := by
  simp [activeBehaviors, activeBehaviors?, hl, hc, h]

/-- The snapshot right after a cycle replays it. -/
theorem Traced.replays {l : Loaded} (ht : e.Traced now trace e') (hl : e.loaded = some l)
    (hr : e.InRange) (hp : e.Past) : ∃ l' entries world, e'.loaded = some l' ∧
      e'.activeBehaviors = (entries, { e' with world }) ∧
      Replays ⟨e.environment, l.graph⟩ e'.cycle l.root l'.options trace e'.world entries world := by
  obtain ⟨hexecute, l₀, m, hl₀, htrace, rfl⟩ := ht
  obtain rfl := Option.some_inj.1 (hl.symm.trans hl₀)
  have hrange := hr.loaded l hl
  have hm := htrace.runs.fits (p := ⟨e.environment, l.graph⟩)
    ⟨hrange.length, hrange.options, hr.behaviors⟩
  obtain ⟨⟨entries, world⟩, hsnapshot⟩ := BehaviorEngine.activeBehaviors?_succeeds hrange.program hm
    (e.cycle + 1) hrange.root m.store.world
  exact ⟨_, entries, world, rfl, activeBehaviors_eq_walk rfl (Nat.succ_ne_zero _) hsnapshot,
    htrace.replays_snapshot (hp.not_ran hl now) hsnapshot⟩

/-- **The snapshot replays the cycle.** Whatever calls an engine has taken, the next cycle has a
trace, and the snapshot right after it consists of the entries of this trace in its order: the root
option first, each option with the state that ran and its times, right below it the entries of the
actions of that state, and each option that ran exactly once. -/
theorem snapshot_replays_cycle (limits : Limits) (environment : Environment σ) (world : World σ)
    (calls : List (Call σ)) (l : Loaded)
    (hl : ((Engine.new limits environment world).after calls).loaded = some l) (now : Nat) :
    (∃ trace e', ((Engine.new limits environment world).after calls).Traced now trace e') ∧
    ∀ trace e', ((Engine.new limits environment world).after calls).Traced now trace e' →
      ∃ l' entries world', e'.loaded = some l' ∧
        e'.activeBehaviors = (entries, { e' with world := world' }) ∧
        Replays ⟨environment, l.graph⟩ e'.cycle l.root l'.options trace e'.world entries
          world' := by
  have hr := (InRange.new limits environment world).after calls
  have hp := (Past.new limits environment world).after calls
  have henvironment := (Engine.new limits environment world).after_environment calls
  refine ⟨hr.exists_traced hl now, fun trace e' ht => ?_⟩
  obtain ⟨l', entries, world', hl', hsnapshot, hreplays⟩ := ht.replays hl hr hp
  rw [henvironment] at hreplays
  exact ⟨l', entries, world', hl', hsnapshot, hreplays⟩

/-- A lamp, and a bell that counts how often it rings. -/
def lamp : Environment Nat where
  symbols := {
    enumerations := Registry.empty
    inputs := PerDomain.ofFn fun _ => Registry.empty
    outputs := ⟨Registry.empty, ⟨[("lit", ⟨(), .cell "lit"⟩)], by decide⟩, Registry.empty⟩ }
  behaviors := ⟨[("ring", ⟨Parameters.none, fun w => { w with host := w.host + 1 }, id⟩)],
    by simp⟩
  sound := by decide

/-- A source in which one option switches the lamp on, and then another one switches it off. -/
def lampSource : String :=
  "2 main 0 dim 0 main 1 s s s 0 4 a ring 0 b lit v true o dim 0 o dim 0 t s " ++
  "dim 1 s s s 0 2 b lit v false a ring 0 t s 0"

/-- An engine with a lamp. -/
def lampEngine : Engine Nat := Engine.new Limits.standard lamp ⟨Cells.empty, 0⟩

/-- The bell is listed twice, but rings once; the second activation is not listed. -/
example : let e := lampEngine.after [.create lampSource, .execute 5]
    (e.activeBehaviors.1.map fun b => (b.depth, b.activity.subject)) =
      [(0, .option "main"), (1, .behavior "ring"), (1, .output .boolean "lit"), (1, .option "dim"),
        (2, .output .boolean "lit"), (2, .behavior "ring")] ∧ e.world.host = 1 := by
  decide +kernel

theorem snapshot_replays_lamp : ∃ l trace e' l' entries world',
    (lampEngine.after [.create lampSource, .execute 5]).loaded = some l ∧
    (lampEngine.after [.create lampSource, .execute 5]).Traced 7 trace e' ∧
    e'.loaded = some l' ∧ e'.activeBehaviors = (entries, { e' with world := world' }) ∧
    Replays ⟨lamp, l.graph⟩ e'.cycle l.root l'.options trace e'.world entries world' := by
  have hsome : (lampEngine.after [.create lampSource, .execute 5]).loaded.isSome = true := by
    decide +kernel
  obtain ⟨l, hl⟩ := Option.isSome_iff_exists.1 hsome
  obtain ⟨⟨trace, e', ht⟩, hlaw⟩ := snapshot_replays_cycle _ _ _ _ l hl 7
  obtain ⟨l', entries, world', hl', hsnapshot, hreplays⟩ := hlaw trace e' ht
  exact ⟨l, trace, e', l', entries, world', hl, ht, hl', hsnapshot, hreplays⟩

end Engine

end BehaviorEngine
