import BehaviorEngine.Proofs.Graph.Fits

/-!
Expressions and their operands. What holds of an expression whenever it holds of its operands holds
of all expressions. The expressions of an action, of a decision tree and of the body of an option
are those that stand in it first; others stand in these.
-/

namespace BehaviorEngine

variable {σ : Type}

/-! ### Operands -/

/-- The expression of a binding. -/
def Binding.expr : Binding → Σ d, Expr d
  | .mk d _ e => ⟨d, e⟩

theorem Binding.Fits.expr {y : Symbols σ} {own room : Domain → Nat} {b : Binding}
    (h : b.Fits y own room) : b.expr.2.Fits y own := by
  cases b with
  | mk => exact h.2

namespace Expr

/-- The expressions that an expression is put together from. -/
def operands : {d : Domain} → Expr d → List (Σ d, Expr d)
  | _, .input _ _ bindings => bindings.map Binding.expr
  | d, .choice condition yes no => [⟨.boolean, condition⟩, ⟨d, yes⟩, ⟨d, no⟩]
  | _, .arithmetic _ left right => [⟨.decimal, left⟩, ⟨.decimal, right⟩]
  | _, .connective _ operands => operands.map fun e => ⟨.boolean, e⟩
  | _, .not operand => [⟨.boolean, operand⟩]
  | _, .relation _ left right => [⟨.decimal, left⟩, ⟨.decimal, right⟩]
  | _, .sameElement left right => [⟨.enumerated, left⟩, ⟨.enumerated, right⟩]
  | _, _ => []

/-- An operand is smaller than the expression. -/
theorem sizeOf_operand {d : Domain} {e : Expr d} {x : Σ d, Expr d} (hx : x ∈ e.operands) :
    sizeOf x.2 < sizeOf e := by
  cases e with
  | literal | parameter | output | stateTime | optionTime | reachedTarget => cases hx
  | input t i bindings =>
    obtain ⟨⟨k, j, e⟩, hb, rfl⟩ := List.mem_map.1 hx
    have hsize := List.sizeOf_lt_of_mem hb
    change sizeOf e < _
    simp only [Binding.mk.sizeOf_spec] at hsize
    simp only [input.sizeOf_spec]
    omega
  | choice c y n =>
    simp only [operands, List.mem_cons, List.not_mem_nil, or_false] at hx
    rcases hx with rfl | rfl | rfl <;> simp only [choice.sizeOf_spec] <;> omega
  | arithmetic _ l r | relation _ l r | sameElement l r =>
    rcases List.mem_pair.1 hx with rfl | rfl <;>
      simp only [arithmetic.sizeOf_spec, relation.sizeOf_spec, sameElement.sizeOf_spec] <;> omega
  | connective op es =>
    obtain ⟨e, he, rfl⟩ := List.mem_map.1 hx
    have hsize := List.sizeOf_lt_of_mem he
    simp only [connective.sizeOf_spec]
    omega
  | not e =>
    obtain rfl := List.mem_singleton.1 hx
    simp only [not.sizeOf_spec]
    omega

/-- **Induction over operands**: what holds of an expression if it holds of its operands holds of
all expressions. -/
@[elab_as_elim]
theorem induction {motive : {d : Domain} → Expr d → Prop}
    (step : ∀ {d : Domain} (e : Expr d), (∀ x ∈ e.operands, motive x.2) → motive e) {d : Domain}
    (e : Expr d) : motive e :=
  step e fun x hx =>
    have := sizeOf_operand hx
    induction step x.2
termination_by sizeOf e

/-- An expression stands in another one, or is that one. -/
inductive Within (x : Σ d, Expr d) : (Σ d, Expr d) → Prop
  | refl : Within x x
  | operand {y z : Σ d, Expr d} (hz : z ∈ y.2.operands) (h : Within x z) : Within x y

section Fits

variable {y : Symbols σ} {own : Domain → Nat}

theorem allFit_iff {es : List (Expr .boolean)} : AllFit y own es ↔ ∀ e ∈ es, e.Fits y own := by
  induction es with
  | nil => simp [AllFit]
  | cons e es ih => rw [List.forall_mem_cons, ← ih, AllFit]

theorem Fits.operands {d : Domain} {e : Expr d} (h : e.Fits y own) {x : Σ d, Expr d}
    (hx : x ∈ e.operands) : x.2.Fits y own := by
  cases e with
  | literal | parameter | output | stateTime | optionTime | reachedTarget => cases hx
  | input =>
    obtain ⟨_, -, -, hb⟩ := h
    obtain ⟨b, hb', rfl⟩ := List.mem_map.1 hx
    exact (Binding.allFit_iff.1 hb b hb').expr
  | choice =>
    obtain ⟨hc, hy, hn⟩ := h
    simp only [Expr.operands, List.mem_cons, List.not_mem_nil, or_false] at hx
    rcases hx with rfl | rfl | rfl
    exacts [hc, hy, hn]
  | arithmetic | relation | sameElement =>
    rcases List.mem_pair.1 hx with rfl | rfl
    exacts [h.1, h.2]
  | connective =>
    obtain ⟨e, he, rfl⟩ := List.mem_map.1 hx
    exact allFit_iff.1 h e he
  | not =>
    obtain rfl := List.mem_singleton.1 hx
    exact h

theorem Within.fits {x z : Σ d, Expr d} (h : Within x z) (hz : z.2.Fits y own) :
    x.2.Fits y own := by
  induction h with
  | refl => exact hz
  | operand hmem _ ih => exact ih (hz.operands hmem)

end Fits

end Expr

/-! ### Expressions of a graph -/

/-- The expressions of an action. -/
def Action.exprs : Action → List (Σ d, Expr d)
  | .activate _ bindings => bindings.map Binding.expr
  | .behave _ bindings => bindings.map Binding.expr
  | .assign (d := d) _ value => [⟨d, value⟩]

mutual

/-- The conditions of a decision tree. -/
def Statement.exprs : Statement → List (Σ d, Expr d)
  | .goto _ => []
  | .branch condition yes otherwise => ⟨.boolean, condition⟩ :: (yes.exprs ++ otherwise.exprs)

/-- The conditions of an alternative. -/
def Alternative.exprs : Alternative → List (Σ d, Expr d)
  | .elseIf condition yes otherwise => ⟨.boolean, condition⟩ :: (yes.exprs ++ otherwise.exprs)
  | .last statement => statement.exprs

end

/-- The expressions of a state. -/
def Graph.State.exprs (s : Graph.State) : List (Σ d, Expr d) :=
  s.actions.flatMap Action.exprs ++ s.decision.exprs

/-- The expressions in the body of an option. -/
def Graph.Node.exprs (n : Graph.Node) : List (Σ d, Expr d) :=
  n.states.values.flatMap Graph.State.exprs

section Fits

variable {p : Program σ} {own : Domain → Nat} {x : Σ d, Expr d}

theorem Action.Fits.exprs {a : Action} (h : a.Fits p own) (hx : x ∈ a.exprs) :
    x.2.Fits p.environment.symbols own := by
  cases a with
  | activate =>
    obtain ⟨b, hb, rfl⟩ := List.mem_map.1 hx
    obtain ⟨_, -, hbs⟩ := h
    exact (hbs b hb).expr
  | behave =>
    obtain ⟨b, hb, rfl⟩ := List.mem_map.1 hx
    obtain ⟨_, -, hbs⟩ := h
    exact (hbs b hb).expr
  | assign =>
    obtain rfl := List.mem_singleton.1 hx
    exact h.2.1

mutual

theorem Statement.Fits.exprs {y : Symbols σ} {states : Nat} {t : Statement}
    (h : t.Fits y own states) (hx : x ∈ t.exprs) : x.2.Fits y own := by
  cases t with
  | goto => cases hx
  | branch condition yes otherwise =>
    rcases List.mem_cons.1 hx with rfl | hx
    · exact h.1
    · rcases List.mem_append.1 hx with hx | hx
      · exact Statement.Fits.exprs h.2.1 hx
      · exact Alternative.Fits.exprs h.2.2 hx

theorem Alternative.Fits.exprs {y : Symbols σ} {states : Nat} {t : Alternative}
    (h : t.Fits y own states) (hx : x ∈ t.exprs) : x.2.Fits y own := by
  cases t with
  | elseIf condition yes otherwise =>
    rcases List.mem_cons.1 hx with rfl | hx
    · exact h.1
    · rcases List.mem_append.1 hx with hx | hx
      · exact Statement.Fits.exprs h.2.1 hx
      · exact Alternative.Fits.exprs h.2.2 hx
  | last statement => exact Statement.Fits.exprs (t := statement) h hx

end

/-- The expressions of an option that fits fit. -/
theorem Graph.Node.Fits.exprs {n : Graph.Node} (h : n.Fits p) (hx : x ∈ n.exprs) :
    x.2.Fits p.environment.symbols n.parameters.sizes := by
  obtain ⟨s, hs, hx⟩ := List.mem_flatMap.1 hx
  rcases List.mem_append.1 hx with hx | hx
  · obtain ⟨a, ha, hx⟩ := List.mem_flatMap.1 hx
    exact ((h.states s hs).actions a ha).exprs hx
  · exact (h.states s hs).decision.exprs hx

end Fits

end BehaviorEngine
