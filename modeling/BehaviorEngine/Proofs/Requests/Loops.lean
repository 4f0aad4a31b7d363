import BehaviorEngine.Proofs.Requests.Reading

/-!
The loops of construction. Every round of a loop takes at least one word away or stops with an
error, so a loop that is told to go round more often than there are words left comes to an error,
and it is the same one for all such counts.
-/

namespace BehaviorEngine

namespace Construct

open Grammar

variable {α β : Type}

/-- **A construction takes at least one word away**, if it does not stop with an error. -/
def Takes (x : Construct α) : Prop :=
  ∀ c a c', x.runOn c = (.ok a, c') → ∃ t ts, c.Consumes (t :: ts) c'

/-- **No count makes a loop run away**: every round takes a word away or stops with an error, and a
count that is larger than the number of the words that are left leads to an error that does not
depend on the count. -/
structure Exhausts (step : β → Construct β) : Prop where
  takes : ∀ b, Takes (step b)
  overrun : ∀ b c, ∃ e c', ∀ n, c.words.length < n →
    (iterate step n b).runOn c = (.error e, c')

namespace Takes

variable {x : Construct α}

theorem of_reads {view : α → β} {L : List String → β → Prop} (h : Reads view x L)
    (hL : ∀ b, ¬ L [] b) : Takes x := by
  intro c a c' hx
  obtain ⟨ts, hc, hts⟩ := h.consumes hx
  cases ts with
  | nil => exact absurd hts (hL _)
  | cons t ts => exact ⟨t, ts, hc⟩

theorem words_lt (h : Takes x) {c c' : Cursor} {a : α} (hx : x.runOn c = (.ok a, c')) :
    c'.words.length < c.words.length := by
  obtain ⟨t, ts, hc⟩ := h c a c' hx
  have hlength := hc.words_length
  rw [List.length_cons] at hlength
  omega

/-- A sequence whose last part only shapes the result. -/
theorem seq_pure (f : α → β) (h : Takes x) : Takes (x >>= fun a => Pure.pure (f a)) := by
  intro c b c' hx
  obtain ⟨a, c₁, hxc, ⟨⟩⟩ := Stateful.bind_eq_ok_iff.1 hx
  exact h c a _ hxc

/-- If every round takes a word away, then the words are used up before a larger count is. -/
theorem overrun {step : β → Construct β} (h : ∀ b, Takes (step b)) (b : β) (c : Cursor) :
    ∃ e c', ∀ n, c.words.length < n → (iterate step n b).runOn c = (.error e, c') := by
  induction hk : c.words.length using Nat.strongRecOn generalizing b c with
  | ind k ih =>
    rcases hstep : (step b).runOn c with ⟨e | b', c₁⟩
    · refine ⟨e, c₁, fun n hn => ?_⟩
      cases n with
      | zero => omega
      | succ n => exact Stateful.bind_of_error hstep
    · have hlt := (h b).words_lt hstep
      obtain ⟨e, c', he⟩ := ih c₁.words.length (by omega) b' c₁ rfl
      refine ⟨e, c', fun n hn => ?_⟩
      cases n with
      | zero => omega
      | succ n => exact (Stateful.bind_of_ok hstep).trans (he n (by omega))

end Takes

theorem Exhausts.of_takes {step : β → Construct β} (h : ∀ b, Takes (step b)) : Exhausts step :=
  ⟨h, Takes.overrun h⟩

/-! ### Rounds -/

section Rounds

variable {σ slot : Type}

theorem header_takes (symbols : Symbols σ) (headers : Registry Header) :
    Takes (header symbols headers) := by
  refine .of_reads (reads_header symbols headers) ?_
  rintro _ ⟨h, hw, -⟩
  exact List.cons_ne_nil _ _ hw

theorem parameter_takes (symbols : Symbols σ) (ps : Parameters Unit) :
    Takes (parameter symbols ps) := by
  refine .of_reads (reads_declaration symbols ps) ?_
  rintro _ ⟨x, hw, -⟩
  cases x <;> exact List.cons_ne_nil _ _ hw

theorem stateName_takes (names : Registry Unit) : Takes (stateName names) := by
  refine .of_reads (reads_stateName names) ?_
  rintro _ ⟨name, hw, -⟩
  exact List.cons_ne_nil _ _ hw

theorem agent_takes (options : Registry Header) (agents : Registry Nat) :
    Takes (agent options agents) := by
  refine .of_reads (reads_agent options agents) ?_
  rintro _ ⟨a, hw, -⟩
  exact List.cons_ne_nil _ _ hw

theorem namedState_takes (scope : Scope σ) (expected : String) :
    Takes (namedState scope expected) := by
  refine .of_reads (reads_namedState scope expected) ?_
  rintro _ ⟨t, hw, -⟩
  exact List.cons_ne_nil _ _ hw

theorem namedBody_takes (limits : Limits) (environment : Environment σ)
    (options : Registry Header) (expected : String × Header) :
    Takes (namedBody limits environment options expected) := by
  refine .of_reads (reads_namedBody limits environment options expected) ?_
  rintro _ ⟨b, hw, -⟩
  exact List.cons_ne_nil _ _ hw

theorem action_takes (scope : Scope σ) : Takes (action scope) := by
  refine .of_reads (reads_action scope) ?_
  rintro _ ⟨x, hw, -⟩
  cases x <;> exact List.cons_ne_nil _ _ hw

theorem binding_takes (scope : Scope σ) (n : Nat) (target : Parameters slot) (owner : String)
    (bound : List Binding) : Takes (binding (expression scope n) target owner bound) := by
  refine .of_reads (reads_binding (reads_expression scope n) target owner bound) ?_
  rintro _ ⟨⟨d, name, value⟩, hw, -⟩
  exact List.cons_ne_nil _ _ hw

theorem operand_takes (scope : Scope σ) (n : Nat) (tag : Word) (sign : String) (d : Domain)
    (expected : Option d.Typing) :
    Takes (formed.operand (expression scope n) tag sign d expected) := by
  refine .of_reads (reads_operand (reads_expression scope n) sign d expected) ?_
  rintro _ ⟨t, hw, -⟩
  cases t <;> exact List.cons_ne_nil _ _ hw

end Rounds

/-! ### Loops -/

/-- **No loop of construction can be made run away by a count**: those over the headers of options,
their parameters, the names of states, actions, bindings, operands and agents go round as often as a
count tells; those over bodies and states go round once for each name that was read before. -/
structure LoopsExhaust (limits : Limits) (environment : Environment σ) : Prop where
  headers : Exhausts (header environment.symbols)
  parameters : Exhausts (parameter environment.symbols)
  stateNames : Exhausts stateName
  actions : ∀ scope : Scope σ, Exhausts fun xs => do return xs ++ [← action scope]
  bindings : ∀ (scope : Scope σ) (n : Nat) {slot : Type} (target : Parameters slot)
    (owner : String),
    Exhausts fun bs => do return bs ++ [← binding (expression scope n) target owner bs]
  operands : ∀ (scope : Scope σ) (n : Nat) (tag : Word) (sign : String),
    Exhausts fun xs => do
      return xs ++ [← formed.operand (expression scope n) tag sign .boolean none]
  agents : ∀ options, Exhausts (agent options)
  bodies : ∀ options expected, Takes (namedBody limits environment options expected)
  states : ∀ (scope : Scope σ) expected, Takes (namedState scope expected)

theorem loopsExhaust (limits : Limits) (environment : Environment σ) :
    LoopsExhaust limits environment where
  headers := .of_takes (header_takes environment.symbols)
  parameters := .of_takes (parameter_takes environment.symbols)
  stateNames := .of_takes stateName_takes
  actions scope := .of_takes fun xs => (action_takes scope).seq_pure fun a => xs ++ [a]
  bindings scope n _ target owner :=
    .of_takes fun bs => (binding_takes scope n target owner bs).seq_pure fun b => bs ++ [b]
  operands scope n tag sign :=
    .of_takes fun xs => (operand_takes scope n tag sign .boolean none).seq_pure fun e => xs ++ [e]
  agents options := .of_takes (agent_takes options)
  bodies := namedBody_takes limits environment
  states := namedState_takes

end Construct

end BehaviorEngine
