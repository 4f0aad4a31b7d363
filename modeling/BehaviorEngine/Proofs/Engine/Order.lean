import BehaviorEngine.Proofs.Host.Order
import BehaviorEngine.Proofs.Renaming.Engines

/-!
The order in which a host registers things. Positions depend on it, and an enumeration is created by
whatever mentions it first; but neither sources nor hosts know of positions, so no order of
independent registrations can be told from another.
-/

namespace BehaviorEngine

variable {σ : Type}

namespace Engine

/-- **Two engines that only positions tell apart.** -/
structure ActsAlike (ρ : Renaming) (e e' : Engine σ) : Prop where
  environment : e.environment.Renames ρ e'.environment
  world : e'.world = e.world
  /-- A source is taken by both engines or refused with the same error, both show the same snapshot,
  and every other call has the same answer. -/
  answers : ∀ c, e'.answer c = e.answer c
  /-- A cycle runs the same options in the same states, and asks the same of the host in the same
  order. -/
  cycles : ∀ l, e.loaded = some l → ∀ now, e'.loaded = some (l.rename ρ) ∧
    (∃ trace e₁, e.Traced now trace e₁) ∧ (∃ trace' e₁', e'.Traced now trace' e₁') ∧
    ∀ trace e₁ trace' e₁', e.Traced now trace e₁ → e'.Traced now trace' e₁' →
      List.Forall₂ (Moment.Renames ρ) trace trace' ∧
      traceLog ⟨e'.environment, l.graph.rename ρ⟩ trace' =
        (traceLog ⟨e.environment, l.graph⟩ trace).map (HostEvent.rename ρ)
  /-- An output symbol has the same value under its name, and was assigned in both or in neither. -/
  outputs : ∀ d name k symbol,
    (e.environment.symbols.outputs.get d).find? name = some (k, symbol) → ∃ k' symbol',
      (e'.environment.symbols.outputs.get d).find? name = some (k', symbol') ∧
      e'.wasSet d k' = e.wasSet d k ∧ (e'.readOutput symbol').1 = (e.readOutput symbol).1
  /-- A basic behavior ran under its name in both engines or in neither. -/
  behaviors : ∀ name b behavior, e.environment.behaviors.find? name = some (b, behavior) →
    ∃ b' behavior', e'.environment.behaviors.find? name = some (b', behavior') ∧
      e'.behaviorRan b' = e.behaviorRan b

theorem Renames.actsAlike {ρ : Renaming} {e e' : Engine σ} (h : e.Renames ρ e') (hr : e.InRange)
    (hr' : e'.InRange) : e.ActsAlike ρ e' where
  environment := h.environment
  world := h.world
  answers := h.answer_eq hr hr'
  cycles l hl now := by
    have hl' := h.loaded_eq_some hl
    refine ⟨hl', hr.exists_traced hl now, hr'.exists_traced hl' now, ?_⟩
    intro trace e₁ trace' e₁' ht ht'
    have hmoments := (h.traced hl ht ht').1
    exact ⟨hmoments, traceLog_rename (h.program l) hmoments⟩
  outputs _ _ _ _ := h.output
  behaviors _ _ _ := h.behavior

end Engine

/-- **The order of independent registrations does not matter.** Let the same registrations succeed
in two orders, with the order kept of the elements of each enumeration, of the parameters of each
owner, and of the functions set on each input symbol. Then engines over the two environments act
alike, whatever calls they have both taken. -/
theorem Registration.Reorders.engines_actAlike {rs rs' : List (Registration σ)}
    (h : Reorders rs rs') {environment environment' : Environment σ}
    (he : (rs.forM perform : Registering σ Unit).runOn Draft.empty = (.ok (), environment.toDraft))
    (he' : (rs'.forM perform : Registering σ Unit).runOn Draft.empty =
      (.ok (), environment'.toDraft)) :
    ∃ ρ, ∀ (limits : Limits) (world : World σ) (calls : List (Call σ)),
      ((Engine.new limits environment world).after calls).ActsAlike ρ
        ((Engine.new limits environment' world).after calls) := by
  obtain ⟨ρ, hρ⟩ := h.exists_renames he he'
  refine ⟨ρ, fun limits world calls => ?_⟩
  have hr := Engine.InRange.new limits environment world
  have hr' := Engine.InRange.new limits environment' world
  have hcalls := (Engine.Renames.new hρ limits world).after hr hr' calls
  exact hcalls.actsAlike (hr.after calls) (hr'.after calls)

/-! ### Sides -/

/-- The elements of an enumeration. -/
def sideElements : List (Registration Unit) :=
  [.element "sides" "left" 0, .element "sides" "right" 1]

/-- Symbols over that enumeration and another one, which is mentioned first. -/
def sideSymbols : List (Registration Unit) :=
  [.output .enumerated "door" "ends" (.cell "door"),
    .input .enumerated "hand" "sides" (.cell "hand")]

/-- What registrations make of an empty environment. -/
def environmentOf (rs : List (Registration Unit)) : Environment Unit :=
  (Registering.build (rs.forM Registration.perform)
    (Registering.forM_keeps Registration.perform_keeps rs) Environment.empty).2

/-- Enumerations stand in another order if the symbols come first. -/
theorem Registration.Reorders.engines_actAlike_sides :
    (environmentOf (sideElements ++ sideSymbols)).symbols.enumerations.names = ["sides", "ends"] ∧
    (environmentOf (sideSymbols ++ sideElements)).symbols.enumerations.names = ["ends", "sides"] ∧
    ∃ ρ, ∀ (limits : Limits) (world : World Unit) (calls : List (Call Unit)),
      ((Engine.new limits (environmentOf (sideElements ++ sideSymbols)) world).after
        calls).ActsAlike ρ
        ((Engine.new limits (environmentOf (sideSymbols ++ sideElements)) world).after calls) := by
  have hall : ∀ rs : List (Registration Unit),
      ((rs.forM perform : Registering Unit Unit).runOn Draft.empty).1 = .ok () →
      (rs.forM perform : Registering Unit Unit).runOn Draft.empty =
        (.ok (), (environmentOf rs).toDraft) := fun _ h => Prod.ext h rfl
  have hsequence : ∀ q, sideSymbols.filter (·.sequence? = some q) = [] := by
    intro q
    simp [sideSymbols, sequence?]
  have horder : Reorders (sideElements ++ sideSymbols) (sideSymbols ++ sideElements) := by
    refine ⟨List.perm_append_comm, fun q => ?_⟩
    rw [List.filter_append, List.filter_append, hsequence q, List.append_nil, List.nil_append]
  exact ⟨by decide +kernel, by decide +kernel,
    horder.engines_actAlike (hall _ (by decide +kernel)) (hall _ (by decide +kernel))⟩

end BehaviorEngine
