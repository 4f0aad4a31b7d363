/-!
Computations that change a state and may stop with an error. What was done to the state before an
error stays done.
-/

namespace BehaviorEngine

/-- A computation with results in `α` that changes a state in `σ` and may stop with an error. -/
abbrev Stateful (σ ε α : Type) := ExceptT ε (StateM σ) α

namespace Stateful

variable {σ ε α β : Type} {x : Stateful σ ε α} {f : α → Stateful σ ε β} {s s₁ s' : σ} {a : α}
  {error : ε}

/-- What a computation comes to, and the state in which it ends. -/
def runOn (x : Stateful σ ε α) (s : σ) : Except ε α × σ := (ExceptT.run x) s

@[simp] theorem runOn_modify (g : σ → σ) (s : σ) :
    (modify g : Stateful σ ε PUnit).runOn s = (.ok ⟨⟩, g s) := rfl

@[simp] theorem runOn_get_bind (f : σ → Stateful σ ε β) (s : σ) :
    (get >>= f).runOn s = (f s).runOn s := rfl

@[simp] theorem runOn_modify_bind (g : σ → σ) (f : PUnit → Stateful σ ε β) (s : σ) :
    (modify g >>= f).runOn s = (f ⟨⟩).runOn (g s) := rfl

/-- A sequence ends where its first part stops. -/
theorem runOn_bind (x : Stateful σ ε α) (f : α → Stateful σ ε β) (s : σ) :
    (x >>= f).runOn s = match x.runOn s with
      | (.ok a, s₁) => (f a).runOn s₁
      | (.error error, s₁) => (.error error, s₁) := by
  change ExceptT.bindCont f (x.runOn s).1 (x.runOn s).2 = _
  rcases x.runOn s with ⟨_ | _, _⟩ <;> rfl

theorem bind_of_ok (h : x.runOn s = (.ok a, s₁)) : (x >>= f).runOn s = (f a).runOn s₁ := by
  rw [runOn_bind, h]

theorem bind_of_error (h : x.runOn s = (.error error, s₁)) :
    (x >>= f).runOn s = (.error error, s₁) := by
  rw [runOn_bind, h]

/-- A sequence succeeds if both parts do. -/
theorem bind_eq_ok_iff {b : β} : (x >>= f).runOn s = (.ok b, s') ↔
    ∃ a s₁, x.runOn s = (.ok a, s₁) ∧ (f a).runOn s₁ = (.ok b, s') := by
  rcases hx : x.runOn s with ⟨e | a, s₁⟩
  · simp [bind_of_error hx]
  · simp [bind_of_ok hx, and_assoc]

/-- A sequence stops if one of its parts does. -/
theorem bind_eq_error_iff : (x >>= f).runOn s = (.error error, s') ↔
    x.runOn s = (.error error, s') ∨
      ∃ a s₁, x.runOn s = (.ok a, s₁) ∧ (f a).runOn s₁ = (.error error, s') := by
  rcases hx : x.runOn s with ⟨e | a, s₁⟩
  · simp [bind_of_error hx]
  · simp [bind_of_ok hx, and_assoc]

end Stateful

end BehaviorEngine
