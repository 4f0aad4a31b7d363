import BehaviorEngine.Proofs.Cycle.Log

/-!
What evaluations yield: the value of each expression that is evaluated, of the inner ones before
that of the whole, and the argument that each binding passes to its target. Like a log it follows
the evaluation, from the store that each part leaves to the next one.
-/

namespace BehaviorEngine

open Evaluate

variable {σ : Type}

/-! ### Yields -/

/-- What a part of an evaluation yields. -/
inductive Yield where
  /-- An expression has a value. -/
  | value {d : Domain} (expression : Expr d) (x : d.Value)
  /-- A call site passes an argument to its target. -/
  | argument (callee : Callee) (a : Argument)
  /-- A value is assigned to an output symbol. -/
  | assigned {d : Domain} (symbol : Nat) (x : d.Value)

/-- The value of an expression as a yield. -/
def Expr.result (s : Surroundings σ) (path : Path) {d : Domain} (e : Expr d) (st : Store σ) :
    List Yield :=
  (e.value s path).next st fun x _ => [.value e x]

mutual

/-- **What the evaluation of an expression yields.** -/
def Expr.yields (environment : Environment σ) (s : Surroundings σ) (path : Path) :
    {d : Domain} → Expr d → Store σ → List Yield
  | _, .literal t x, st => Expr.result s path (.literal t x) st
  | _, .parameter t i, st => Expr.result s path (.parameter t i) st
  | d, .input t i bindings, st =>
    Binding.yields environment s path (.input d i) 0 bindings st ++
      Expr.result s path (.input t i bindings) st
  | _, .output t k, st => Expr.result s path (.output t k) st
  | _, .choice condition yes no, st =>
    (condition.yields environment s (0 :: path) st ++
      (condition.value s (0 :: path)).next st fun b st' =>
        match b with
        | true => yes.yields environment s (1 :: path) st'
        | false => no.yields environment s (2 :: path) st') ++
      Expr.result s path (.choice condition yes no) st
  | _, .arithmetic op left right, st =>
    (left.yields environment s (0 :: path) st ++ (left.value s (0 :: path)).next st fun _ st' =>
      right.yields environment s (1 :: path) st') ++
    Expr.result s path (.arithmetic op left right) st
  | _, .stateTime, st => Expr.result s path .stateTime st
  | _, .optionTime, st => Expr.result s path .optionTime st
  | _, .connective op operands, st =>
    Expr.connectedYields environment s path op 0 operands st ++
      Expr.result s path (.connective op operands) st
  | _, .not operand, st =>
    operand.yields environment s (0 :: path) st ++ Expr.result s path (.not operand) st
  | _, .relation op left right, st =>
    (left.yields environment s (0 :: path) st ++ (left.value s (0 :: path)).next st fun _ st' =>
      right.yields environment s (1 :: path) st') ++ Expr.result s path (.relation op left right) st
  | _, .sameElement left right, st =>
    (left.yields environment s (0 :: path) st ++ (left.value s (0 :: path)).next st fun _ st' =>
      right.yields environment s (1 :: path) st') ++ Expr.result s path (.sameElement left right) st
  | _, .reachedTarget, st => Expr.result s path .reachedTarget st
termination_by structural _ e => e

/-- What the evaluation of the operands of a connective from the `k`-th on yields. -/
def Expr.connectedYields (environment : Environment σ) (s : Surroundings σ) (path : Path)
    (op : Connective) (k : Nat) : List (Expr .boolean) → Store σ → List Yield
  | [], _ => []
  | operand :: rest, st =>
    operand.yields environment s (k :: path) st ++
      (operand.value s (k :: path)).next st fun x st' =>
        if x = op.unit then Expr.connectedYields environment s path op (k + 1) rest st' else []
termination_by structural es => es

/-- What the evaluation of the bindings of a call site from the `k`-th on yields. -/
def Binding.yields (environment : Environment σ) (s : Surroundings σ) (path : Path)
    (callee : Callee) (k : Nat) : List Binding → Store σ → List Yield
  | [], _ => []
  | .mk d i expression :: rest, st =>
    expression.yields environment s (k :: path) st ++
      (expression.value s (k :: path)).next st fun x st₁ =>
        .argument callee ⟨d, i, x⟩ :: (environment.write callee ⟨d, i, x⟩).next st₁ fun _ st₂ =>
          Binding.yields environment s path callee (k + 1) rest st₂
termination_by structural bs => bs

end

mutual

/-- What the evaluation of a decision tree yields. -/
def Statement.yields (environment : Environment σ) (s : Surroundings σ) (path : Path) :
    Statement → Store σ → List Yield
  | .goto _, _ => []
  | .branch condition yes otherwise, st =>
    condition.yields environment s (0 :: path) st ++
      (condition.value s (0 :: path)).next st fun b st' =>
        match b with
        | true => yes.yields environment s (1 :: path) st'
        | false => otherwise.yields environment s (2 :: path) st'

/-- What the evaluation of an alternative yields. -/
def Alternative.yields (environment : Environment σ) (s : Surroundings σ) (path : Path) :
    Alternative → Store σ → List Yield
  | .elseIf condition yes otherwise, st =>
    condition.yields environment s (0 :: path) st ++
      (condition.value s (0 :: path)).next st fun b st' =>
        match b with
        | true => yes.yields environment s (1 :: path) st'
        | false => otherwise.yields environment s (2 :: path) st'
  | .last statement, st => statement.yields environment s path st

end

/-- What the evaluation of an action yields. -/
def Action.yields (environment : Environment σ) (s : Surroundings σ) (path : Path) :
    Action → Store σ → List Yield
  | .activate o bindings, st => Binding.yields environment s path (.option o) 0 bindings st
  | .behave b bindings, st => Binding.yields environment s path (.behavior b) 0 bindings st
  | .assign (d := d) k value, st =>
    value.yields environment s path st ++
      (value.value s path).next st fun x _ => [.assigned (d := d) k x]

/-- What the evaluation at a moment yields. -/
def Moment.yields (p : Program σ) : Moment σ → List Yield
  | .evaluates _ path s m =>
    match p.graph.action? path with
    | some a => a.yields p.environment s path m.store
    | none => (p.graph.decision? path).elim [] fun t => t.yields p.environment s path m.store
  | _ => []

/-- **What all evaluations of a trace yield.** -/
def traceYields (p : Program σ) (trace : List (Moment σ)) : List Yield :=
  trace.flatMap (Moment.yields p)

/-! ### Parts of an evaluation -/

/-- What a part of an evaluation yields. -/
def Part.yields (environment : Environment σ) (s : Surroundings σ) (part : Part σ) : List Yield :=
  part.expression.yields environment s part.site part.store

section Parts

variable {environment : Environment σ} {s : Surroundings σ} {path : Path} {st : Store σ}

theorem Expr.connectedYields_eq {op : Connective} {k : Nat} {es : List (Expr .boolean)} :
    Expr.connectedYields environment s path op k es st =
      (Expr.connectedParts s path op k es st).flatMap (Part.yields environment s) := by
  induction es generalizing k st with
  | nil => rfl
  | cons e es ih =>
    rw [Expr.connectedYields, Expr.flatMap_connectedParts]
    simp only [ih]
    rfl

/-- **An evaluation yields what its parts yield, and then its value.** -/
theorem Expr.yields_eq {d : Domain} {e : Expr d} (he : e.asksHost = false) :
    e.yields environment s path st =
      (e.parts s path st).flatMap (Part.yields environment s) ++ e.result s path st := by
  cases e with
  | input | output => cases he
  | choice =>
    rw [Expr.flatMap_parts_choice]
    rfl
  | arithmetic | relation | sameElement =>
    rw [Expr.parts, Expr.flatMap_pairParts]
    rfl
  | connective =>
    rw [Expr.yields, Expr.connectedYields_eq]
    rfl
  | not =>
    rw [Expr.parts, List.flatMap_singleton]
    rfl
  | _ => rfl

/-- What the bindings of a call site yield is an argument that is passed, or one of their
expressions yields it. -/
theorem Binding.mem_yields {callee : Callee} {k : Nat} {bs : List Binding} {y : Yield}
    (h : y ∈ Binding.yields environment s path callee k bs st) :
    (∃ a, y = .argument callee a) ∨
      ∃ b ∈ bs, ∃ path' st', y ∈ b.expr.2.yields environment s path' st' := by
  induction bs generalizing k st with
  | nil => cases h
  | cons b bs ih =>
    cases b with
    | mk kind j e =>
      rcases mem_append_next.1 h with h | ⟨x, st₁, -, h⟩
      · exact .inr ⟨_, List.mem_cons_self, _, _, h⟩
      · rcases List.mem_cons.1 h with rfl | h
        · exact .inl ⟨_, rfl⟩
        · obtain ⟨_, st₂, -, h⟩ := mem_next.1 h
          exact (ih h).imp_right fun ⟨b, hb, hyield⟩ => ⟨b, List.mem_cons_of_mem _ hb, hyield⟩

mutual

theorem Statement.yields_eq_asked (path : Path) (t : Statement) (st : Store σ) :
    t.yields environment s path st =
      (t.asked s path st).flatMap fun question => question.part.yields environment s := by
  cases t with
  | goto => rfl
  | branch condition yes otherwise =>
    rw [Statement.yields, Statement.asked, List.flatMap_cons, flatMap_next]
    refine congrArg _ (congrArg _ (funext₂ fun b st₁ => ?_))
    cases b with
    | true => exact Statement.yields_eq_asked _ yes st₁
    | false => exact Alternative.yields_eq_asked _ otherwise st₁

theorem Alternative.yields_eq_asked (path : Path) (t : Alternative) (st : Store σ) :
    t.yields environment s path st =
      (t.asked s path st).flatMap fun question => question.part.yields environment s := by
  cases t with
  | elseIf condition yes otherwise =>
    rw [Alternative.yields, Alternative.asked, List.flatMap_cons, flatMap_next]
    refine congrArg _ (congrArg _ (funext₂ fun b st₁ => ?_))
    cases b with
    | true => exact Statement.yields_eq_asked _ yes st₁
    | false => exact Alternative.yields_eq_asked _ otherwise st₁
  | last statement => exact Statement.yields_eq_asked path statement st

end

/-- **A decision tree yields what its conditions yield.** -/
theorem Statement.yields_eq {t : Statement} :
    t.yields environment s path st = (t.parts s path st).flatMap (Part.yields environment s) := by
  rw [Statement.yields_eq_asked, Statement.parts, List.flatMap_map]

end Parts

/-! ### Parts of a trace -/

section Evaluation

variable {environment : Environment σ} {s : Surroundings σ} {path : Path} {d : Domain} {e : Expr d}
  {st st' : Store σ} {x : d.Value}

theorem Expr.result_eq (h : e.value s path st = some (x, st')) :
    e.result s path st = [.value e x] := Evaluate.next_eq h _

/-- The value of an expression is among its yields. -/
theorem Expr.value_mem_yields (h : e.value s path st = some (x, st')) :
    .value e x ∈ e.yields environment s path st := by
  have hresult : .value e x ∈ e.result s path st := by
    rw [Expr.result_eq h]
    exact List.mem_singleton_self _
  cases e with
  | literal | parameter | output | stateTime | optionTime | reachedTarget => exact hresult
  | input | choice | arithmetic | connective | not | relation | sameElement =>
    exact List.mem_append_right _ hresult

/-- The arguments that the bindings of a call site make are among their yields. -/
theorem Binding.argument_mem_yields {callee : Callee} {k : Nat} {bs : List Binding}
    {arguments : List Argument}
    (h : Binding.values s path (environment.write callee) k bs st = some (arguments, st'))
    {a : Argument} (ha : a ∈ arguments) :
    .argument callee a ∈ Binding.yields environment s path callee k bs st := by
  induction bs generalizing k st arguments with
  | nil =>
    obtain ⟨rfl, -⟩ := Partial.pure_eq_some.1 h
    cases ha
  | cons b bs ih =>
    cases b with
    | mk kind i e =>
      obtain ⟨x, st₁, st₂, rest, hx, hwrite, hrest, rfl⟩ := Binding.values_cons_eq_some h
      rw [Binding.yields, Evaluate.next_eq hx, Evaluate.next_eq hwrite]
      rcases List.mem_cons.1 ha with rfl | ha
      · exact List.mem_append_right _ (List.mem_cons_self ..)
      · exact List.mem_append_right _ (List.mem_cons_of_mem _ (ih hrest ha))

end Evaluation

section Moments

variable {p : Program σ} {i : Nat} {path : Path} {s : Surroundings σ} {m : Machine σ}

theorem Moment.yields_action {a : Action} (ha : p.graph.action? path = some a) :
    (Moment.evaluates i path s m).yields p = a.yields p.environment s path m.store := by
  rw [Moment.yields, ha]

theorem Moment.yields_decision {k : Nat} {state : Graph.State}
    (hs : p.graph.state? i k = some state) :
    (Moment.evaluates i [state.actions.length, k, i] s m).yields p =
      state.decision.yields p.environment s [state.actions.length, k, i] m.store := by
  obtain ⟨haction, hdecision⟩ := Graph.decision?_of_state? hs
  rw [Moment.yields, haction, hdecision]
  rfl

theorem traceYields_append (xs ys : List (Moment σ)) :
    traceYields p (xs ++ ys) = traceYields p xs ++ traceYields p ys := List.flatMap_append

theorem traceYields_cons (x : Moment σ) (xs : List (Moment σ)) :
    traceYields p (x :: xs) = x.yields p ++ traceYields p xs := List.flatMap_cons

/-- The run of a basic behavior yields what the evaluation of its action does. -/
theorem traceYields_behave {a : Action} (ha : p.graph.action? path = some a) {depth b : Nat} :
    traceYields p [.requests depth b, .evaluates i path s m, .behaves depth b] =
      a.yields p.environment s path m.store :=
  (List.append_nil _).trans (Moment.yields_action ha)

/-- An assignment yields what the evaluation of its action does. -/
theorem traceYields_assign {a : Action} (ha : p.graph.action? path = some a) {depth k : Nat}
    {d : Domain} {e : Expr d} {x : d.Value} :
    traceYields p [.evaluates i path s m, .assigns depth k e x] =
      a.yields p.environment s path m.store :=
  (List.append_nil _).trans (Moment.yields_action ha)

/-- An option yields what its actions and its decision tree yield. -/
theorem traceYields_enter {depth k time stateTime next : Nat} {state : Graph.State}
    (hs : p.graph.state? i k = some state) (trace : List (Moment σ)) :
    traceYields p (.enters depth i k time stateTime ::
        (trace ++ [.evaluates i [state.actions.length, k, i] s m, .selects i next])) =
      traceYields p trace ++
        state.decision.yields p.environment s [state.actions.length, k, i] m.store := by
  change traceYields p (trace ++ _) = _
  rw [traceYields_append, ← Moment.yields_decision hs]
  exact congrArg (traceYields p trace ++ ·) (List.append_nil _)

end Moments

/-! ### Only evaluations yield -/

/-- A value that is yielded is what the evaluation of its expression has given. -/
def Yield.Evaluated (s : Surroundings σ) : Yield → Prop
  | value expression x => ∃ path st st', expression.value s path st = some (x, st')
  | _ => True

section Evaluated

variable {environment : Environment σ} {s : Surroundings σ}

theorem Expr.evaluated_of_mem_result {path : Path} {d : Domain} {e : Expr d} {st : Store σ}
    {y : Yield} (h : y ∈ e.result s path st) : y.Evaluated s := by
  obtain ⟨x, st', hx, hy⟩ := Evaluate.mem_next.1 h
  obtain rfl := List.mem_singleton.1 hy
  exact ⟨path, st, st', hx⟩

theorem Binding.evaluated_of_mem_yields {path : Path} {callee : Callee} {k : Nat}
    {bs : List Binding} (hbs : ∀ b ∈ bs, ∀ path st, ∀ y ∈ b.expr.2.yields environment s path st,
      y.Evaluated s) {st : Store σ} :
    ∀ y ∈ Binding.yields environment s path callee k bs st, y.Evaluated s := by
  intro y hy
  rcases Binding.mem_yields hy with ⟨a, rfl⟩ | ⟨b, hb, path', st', hy⟩
  · trivial
  · exact hbs b hb path' st' y hy

/-- **Every value that an expression yields has been evaluated.** -/
theorem Expr.evaluated_of_mem_yields (path : Path) {d : Domain} (e : Expr d) (st : Store σ) :
    ∀ y ∈ e.yields environment s path st, y.Evaluated s := by
  induction e using Expr.induction generalizing path st with
  | step e ih =>
    intro y hy
    cases e with
    | input t i bindings =>
      rcases List.mem_append.1 hy with hy | hy
      · exact Binding.evaluated_of_mem_yields
          (fun b hb path => ih _ (List.mem_map_of_mem hb) path) y hy
      · exact Expr.evaluated_of_mem_result hy
    | output => exact Expr.evaluated_of_mem_result hy
    | _ =>
      rw [Expr.yields_eq rfl] at hy
      rcases List.mem_append.1 hy with hy | hy
      · obtain ⟨part, hp, hy⟩ := List.mem_flatMap.1 hy
        exact ih _ (Expr.mem_operands_of_mem_parts hp) _ _ y hy
      · exact Expr.evaluated_of_mem_result hy

theorem Statement.evaluated_of_mem_yields {path : Path} {t : Statement} {st : Store σ} {y : Yield}
    (h : y ∈ t.yields environment s path st) : y.Evaluated s := by
  rw [Statement.yields_eq] at h
  obtain ⟨part, -, h⟩ := List.mem_flatMap.1 h
  exact Expr.evaluated_of_mem_yields _ _ _ y h

theorem Action.evaluated_of_mem_yields {path : Path} {a : Action} {st : Store σ} {y : Yield}
    (h : y ∈ a.yields environment s path st) : y.Evaluated s := by
  cases a with
  | activate o bindings | behave b bindings =>
    exact Binding.evaluated_of_mem_yields
      (fun b _ path => Expr.evaluated_of_mem_yields path _) y h
  | assign k value =>
    rcases mem_append_next.1 h with h | ⟨x, st₁, -, h⟩
    · exact Expr.evaluated_of_mem_yields _ value _ y h
    · obtain rfl := List.mem_singleton.1 h
      trivial

/-- What a trace yields has been evaluated at some moment of it. -/
theorem evaluated_of_mem_traceYields {p : Program σ} {trace : List (Moment σ)} {y : Yield}
    (h : y ∈ traceYields p trace) :
    ∃ i path s m, .evaluates i path s m ∈ trace ∧ y.Evaluated s := by
  obtain ⟨x, hx, hy⟩ := List.mem_flatMap.1 h
  cases x with
  | enters | requests | behaves | assigns | selects => cases hy
  | evaluates i path s m =>
    refine ⟨i, path, s, m, hx, ?_⟩
    rw [Moment.yields] at hy
    split at hy
    · exact Action.evaluated_of_mem_yields hy
    · cases hd : p.graph.decision? path with
      | none =>
        rw [hd] at hy
        cases hy
      | some t =>
        rw [hd] at hy
        exact Statement.evaluated_of_mem_yields hy

end Evaluated

end BehaviorEngine
