import BehaviorEngine.Engine.Snapshot

/-!
Partial steps: computations on a state that may stop. Evaluations, the parts of a cycle and the
walk of a snapshot are such steps. This module opens their sequences once, so that no other proof
unfolds them, and gives the rules by which a step is seen to succeed.
-/

namespace BehaviorEngine

namespace Partial

variable {S α β : Type}

/-! ### Results -/

section Results

variable {s s' : S} {a : α} {b : β}

theorem bind_eq_some {x : StateT S Option α} {f : α → StateT S Option β} :
    (x >>= f) s = some (b, s') ↔ ∃ a s₁, x s = some (a, s₁) ∧ f a s₁ = some (b, s') := by
  change (x s).bind (fun p => f p.1 p.2) = _ ↔ _
  rw [Option.bind_eq_some_iff, Prod.exists]

theorem pure_eq_some {a' : α} :
    (pure a : StateT S Option α) s = some (a', s') ↔ a = a' ∧ s = s' := by
  change some (a, s) = _ ↔ _
  simp

theorem lift_eq_some {o : Option α} :
    (liftM o : StateT S Option α) s = some (a, s') ↔ o = some a ∧ s = s' := by
  cases o with
  | none => exact iff_of_false nofun nofun
  | some b =>
    change some (b, s) = _ ↔ _
    simp

theorem lift_some (a : α) : (liftM (some a) : StateT S Option α) = pure a := rfl

theorem lift_map_bind {γ : Type} (f : α → β) (o : Option α) (k : β → StateT S Option γ) :
    (liftM (o.map f) >>= k) = liftM o >>= fun a => k (f a) := by
  cases o <;> rfl

theorem get_eq_some {t : S} : (get : StateT S Option S) s = some (t, s') ↔ s = t ∧ s = s' :=
  pure_eq_some

theorem modify_eq_some {f : S → S} {u : PUnit} :
    (modify f : StateT S Option PUnit) s = some (u, s') ↔ f s = s' := by
  change some (PUnit.unit, f s) = _ ↔ _
  simp

theorem modifyGet_eq_some {f : S → α × S} :
    (modifyGet f : StateT S Option α) s = some (a, s') ↔ f s = (a, s') := by
  change some ((f s).1, (f s).2) = _ ↔ _
  rw [Option.some_inj]

/-- Two steps whose results are combined. -/
theorem pair_eq_some {γ : Type} {x : StateT S Option α} {y : StateT S Option β} {f : α → β → γ}
    {c : γ} : (x >>= fun a => y >>= fun b => pure (f a b)) s = some (c, s') ↔
      ∃ a s₁ b, x s = some (a, s₁) ∧ y s₁ = some (b, s') ∧ f a b = c := by
  simp only [bind_eq_some, pure_eq_some]
  constructor
  · rintro ⟨a, s₁, hx, b, s₂, hy, rfl, rfl⟩
    exact ⟨a, s₁, b, hx, hy, rfl⟩
  · rintro ⟨a, s₁, b, hx, hy, rfl⟩
    exact ⟨a, s₁, hx, b, s', hy, rfl, rfl⟩

end Results

/-! ### Success -/

/-- A step succeeds in a state. -/
def Succeeds (x : StateT S Option α) (s : S) : Prop := ∃ a s', x s = some (a, s')

section Success

variable {s : S}

theorem succeeds_pure (a : α) : Succeeds (pure a : StateT S Option α) s := ⟨a, s, rfl⟩

theorem succeeds_get : Succeeds (get : StateT S Option S) s := ⟨s, s, rfl⟩

theorem succeeds_modify (f : S → S) : Succeeds (modify f : StateT S Option PUnit) s :=
  ⟨_, f s, rfl⟩

theorem succeeds_modifyGet (f : S → α × S) : Succeeds (modifyGet f : StateT S Option α) s :=
  ⟨(f s).1, (f s).2, rfl⟩

theorem succeeds_lift {o : Option α} (h : ∃ a, o = some a) :
    Succeeds (liftM o : StateT S Option α) s := by
  obtain ⟨a, h⟩ := h
  exact ⟨a, s, lift_eq_some.2 ⟨h, rfl⟩⟩

/-- A sequence succeeds if its first part does and the rest does wherever the first part ends. -/
theorem Succeeds.bind {x : StateT S Option α} {f : α → StateT S Option β} (hx : Succeeds x s)
    (hf : ∀ a s', x s = some (a, s') → Succeeds (f a) s') : Succeeds (x >>= f) s := by
  obtain ⟨a, s₁, h⟩ := hx
  obtain ⟨b, s₂, h'⟩ := hf a s₁ h
  exact ⟨b, s₂, bind_eq_some.2 ⟨a, s₁, h, h'⟩⟩

end Success

end Partial

end BehaviorEngine
