import BehaviorEngine.Proofs.Cycle.Outputs
import BehaviorEngine.Proofs.Engine.Snapshots

/-!
Output symbols of an engine. Right after a cycle, whatever calls the engine has taken before, the
symbols that are marked as assigned are those that the snapshot lists, and those that a state that
ran assigns; a variable that belongs to one symbol alone holds what was assigned to it last.
-/

namespace BehaviorEngine

namespace Engine

variable {σ : Type} {e e' : Engine σ} {now : Nat} {trace : List (Moment σ)} {d : Domain} {k : Nat}

/-- The symbols that are marked after a cycle are those that its trace assigns. -/
theorem Traced.wasSet_iff (ht : e.Traced now trace e') :
    e'.wasSet d k = true ↔ Assigns d k trace := by
  obtain ⟨-, l, m, -, htrace, rfl⟩ := ht
  change (m.assigned.get d).contains k = true ↔ _
  rw [List.contains_iff_mem, htrace.mem_assigned_iff, PerDomain.get_ofFn]
  exact or_iff_right List.not_mem_nil

/-- A trace assigns what the states that ran assign. -/
theorem Traced.assigns_iff {l l' : Loaded} (ht : e.Traced now trace e') (hl : e.loaded = some l)
    (hp : e.Past) (hl' : e'.loaded = some l') :
    Assigns d k trace ↔ l.graph.AssignsIn l'.options e'.cycle d k := by
  obtain ⟨-, l₀, m, hl₀, htrace, rfl⟩ := ht
  obtain rfl := Option.some_inj.1 (hl.symm.trans hl₀)
  obtain rfl := Option.some_inj.1 hl'
  exact htrace.assigns_iff (hp.not_ran hl now)

/-- The value of an output symbol after a cycle. -/
theorem Traced.readOutput_eq (ht : e.Traced now trace e') (hr : e.InRange)
    {symbol : OutputSymbol σ d} {cell : String}
    (hk : (e.environment.symbols.outputs.get d).at? k = some symbol)
    (hcell : symbol.binding = .cell cell) (hy : e.environment.Owns d k cell) :
    (e'.readOutput symbol).1 = (lastAssigned d k trace).getD (e.readOutput symbol).1 := by
  obtain ⟨-, l, m, hl, htrace, rfl⟩ := ht
  have hread := htrace.read_eq (hr.loaded l hl).program hy hk hcell trivial
  rw [readOutput, readOutput, hcell]
  exact hread

/-- **Output symbols tell what was assigned.** Whatever calls an engine has taken, after the next
cycle an output symbol is marked as assigned if and only if the snapshot lists it, which is the case
if and only if a state that ran in the cycle has an action that assigns it. If the symbol is bound
to a variable of its own, its value is the one that was assigned last, or the one that it had before
the cycle if there was no assignment. -/
theorem outputs_tell_assignments (limits : Limits) (environment : Environment σ) (world : World σ)
    (calls : List (Call σ)) (l : Loaded)
    (hl : ((Engine.new limits environment world).after calls).loaded = some l) (now : Nat) :
    (∃ trace e', ((Engine.new limits environment world).after calls).Traced now trace e') ∧
    ∀ trace e', ((Engine.new limits environment world).after calls).Traced now trace e' →
      ∃ l', e'.loaded = some l' ∧ ∀ (d : Domain) (k : Nat) (symbol : OutputSymbol σ d)
        (name : String), (environment.symbols.outputs.get d).at? k = some symbol →
        (environment.symbols.outputs.get d).name? k = some name →
        (e'.wasSet d k = true ↔
          .output d name ∈ e'.activeBehaviors.1.map (·.activity.subject)) ∧
        (e'.wasSet d k = true ↔ l.graph.AssignsIn l'.options e'.cycle d k) ∧
        ∀ cell, symbol.binding = .cell cell → environment.Owns d k cell →
          (e'.readOutput symbol).1 = (lastAssigned d k trace).getD
            (((Engine.new limits environment world).after calls).readOutput symbol).1 := by
  have hr := (InRange.new limits environment world).after calls
  have hp := (Past.new limits environment world).after calls
  have henvironment := (Engine.new limits environment world).after_environment calls
  refine ⟨hr.exists_traced hl now, fun trace e' ht => ?_⟩
  obtain ⟨l', entries, world', hl', hsnapshot, hreplays⟩ := ht.replays hl hr hp
  refine ⟨l', hl', fun d k symbol name hk hname => ⟨?_, ?_, fun cell hcell hy => ?_⟩⟩
  · rw [ht.wasSet_iff, hsnapshot]
    refine (listed_output_iff hreplays.replay_eq ?_).symm
    rw [henvironment]
    exact hname
  · rw [ht.wasSet_iff]
    exact ht.assigns_iff hl hp hl'
  · refine ht.readOutput_eq hr ?_ hcell ?_
    · rw [henvironment]
      exact hk
    · rw [henvironment]
      exact hy

theorem output_at?_lamp {e : Domain} {j : Nat} {symbol : OutputSymbol Nat e}
    (h : (lamp.symbols.outputs.get e).at? j = some symbol) : e = .boolean ∧ j = 0 := by
  cases e with
  | decimal | enumerated => cases h
  | boolean =>
    cases j with
    | zero => exact ⟨rfl, rfl⟩
    | succ j => cases h

/-- The lamp has a variable to itself. -/
theorem owns_lamp : lamp.Owns .boolean 0 "lit" where
  store := by
    intro e j symbol hs hne
    obtain ⟨rfl, rfl⟩ := output_at?_lamp hs
    exact absurd rfl hne
  fetch := by
    intro e j symbol hs w
    obtain ⟨rfl, rfl⟩ := output_at?_lamp hs
    cases hs
    rfl
  input := by
    intro e j symbol hs
    cases e <;> cases hs
  inputSlot := by
    intro e j symbol hs
    cases e <;> cases hs
  behavior := by
    intro j behavior hs
    match j, hs with
    | 0, rfl => exact ⟨fun _ => rfl, fun _ => rfl⟩
  behaviorSlot := by
    intro j behavior hs kind i x hx
    match j, hs with
    | 0, rfl => cases kind <;> cases hx

/-- The lamp is switched on and then off. -/
example : let e := lampEngine.after [.create lampSource, .execute 5]
    e.wasSet .boolean 0 = true ∧ e.world.read .boolean "lit" = false := by
  decide +kernel

theorem outputs_tell_assignments_lamp : ∃ trace e' l l',
    (lampEngine.after [.create lampSource, .host (·.write .boolean "lit" true)]).Traced 7 trace e' ∧
    (lampEngine.after [.create lampSource, .host (·.write .boolean "lit" true)]).loaded = some l ∧
    e'.loaded = some l' ∧ (e'.wasSet .boolean 0 = true ↔
      .output .boolean "lit" ∈ e'.activeBehaviors.1.map (·.activity.subject)) ∧
    (e'.wasSet .boolean 0 = true ↔ l.graph.AssignsIn l'.options e'.cycle .boolean 0) ∧
    (e'.readOutput (d := .boolean) ⟨(), .cell "lit"⟩).1 =
      (lastAssigned .boolean 0 trace).getD ((lampEngine.after [.create lampSource,
        .host (·.write .boolean "lit" true)]).readOutput (d := .boolean) ⟨(), .cell "lit"⟩).1 := by
  have hsome : (lampEngine.after [.create lampSource,
      .host (·.write .boolean "lit" true)]).loaded.isSome = true := by decide +kernel
  obtain ⟨l, hl⟩ := Option.isSome_iff_exists.1 hsome
  obtain ⟨⟨trace, e', ht⟩, hlaw⟩ := outputs_tell_assignments _ _ _ _ l hl 7
  obtain ⟨l', hl', hsymbols⟩ := hlaw trace e' ht
  obtain ⟨hlisted, hassigned, hvalue⟩ := hsymbols .boolean 0 ⟨(), .cell "lit"⟩ "lit" rfl rfl
  exact ⟨trace, e', l, l', ht, hl, hl', hlisted, hassigned, hvalue "lit" rfl owns_lamp⟩

end Engine

end BehaviorEngine
