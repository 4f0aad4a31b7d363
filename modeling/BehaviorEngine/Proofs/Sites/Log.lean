import BehaviorEngine.Proofs.Sites.Calls
import BehaviorEngine.Proofs.Slots.Trace

/-!
The log of an evaluation. It follows the evaluation, from the store that each part leaves to the
next one, and lists what the host is asked to do.
-/

namespace BehaviorEngine

open Evaluate

variable {σ : Type}

/-- Writes an argument into the slot of its parameter; options have no slots at the host. -/
def Environment.write (environment : Environment σ) (callee : Callee) :
    Argument → Evaluate σ Unit :=
  (environment.parameters? callee).elim (fun _ => pure ()) writeSlot

/-- Whether a call site gives notice: not to an option, and else if there are arguments which are
not those of the last time. -/
def Callee.gives (callee : Callee) (last : Option (List Argument)) (arguments : List Argument) :
    Bool :=
  match callee with
  | .option _ => false
  | _ => !arguments.isEmpty && last != some arguments

/-- What is listed when an argument is passed. -/
def HostEvent.pass (site : Path) (callee : Callee) (a : Argument) : List (HostEvent σ) :=
  match callee with
  | .option _ => []
  | _ => [.wrote site callee a]

mutual

/-- **The log of the evaluation of an expression.** -/
def Expr.log (environment : Environment σ) (s : Surroundings σ) (path : Path) :
    {d : Domain} → Expr d → Store σ → List (HostEvent σ)
  | _, .literal _ _, _ => []
  | _, .parameter _ _, _ => []
  | d, .input _ i bindings, st =>
    Binding.log environment s path (.input d i) 0 bindings st ++
      (Binding.values s path (environment.write (.input d i)) 0 bindings).next st
        fun arguments st' => HostEvent.call environment path (.input d i)
          (Callee.gives (.input d i) (st'.memory.get? path) arguments) arguments st'.world
  | d, .output _ k, _ => [.fetched d k]
  | _, .choice condition yes no, st =>
    condition.log environment s (0 :: path) st ++
      (condition.value s (0 :: path)).next st fun b st' =>
        match b with
        | true => yes.log environment s (1 :: path) st'
        | false => no.log environment s (2 :: path) st'
  | _, .arithmetic _ left right, st =>
    left.log environment s (0 :: path) st ++ (left.value s (0 :: path)).next st fun _ st' =>
      right.log environment s (1 :: path) st'
  | _, .stateTime, _ => []
  | _, .optionTime, _ => []
  | _, .connective op operands, st => Expr.connectedLog environment s path op 0 operands st
  | _, .not operand, st => operand.log environment s (0 :: path) st
  | _, .relation _ left right, st =>
    left.log environment s (0 :: path) st ++ (left.value s (0 :: path)).next st fun _ st' =>
      right.log environment s (1 :: path) st'
  | _, .sameElement left right, st =>
    left.log environment s (0 :: path) st ++ (left.value s (0 :: path)).next st fun _ st' =>
      right.log environment s (1 :: path) st'
  | _, .reachedTarget, _ => []
termination_by structural _ e => e

/-- The log of the evaluation of the operands of a connective from the `k`-th on. -/
def Expr.connectedLog (environment : Environment σ) (s : Surroundings σ) (path : Path)
    (op : Connective) (k : Nat) : List (Expr .boolean) → Store σ → List (HostEvent σ)
  | [], _ => []
  | operand :: rest, st =>
    operand.log environment s (k :: path) st ++
      (operand.value s (k :: path)).next st fun x st' =>
        if x = op.unit then Expr.connectedLog environment s path op (k + 1) rest st' else []
termination_by structural es => es

/-- The log of the evaluation of the bindings of a call site from the `k`-th on. -/
def Binding.log (environment : Environment σ) (s : Surroundings σ) (path : Path)
    (callee : Callee) (k : Nat) : List Binding → Store σ → List (HostEvent σ)
  | [], _ => []
  | .mk d i expression :: rest, st =>
    expression.log environment s (k :: path) st ++
      (expression.value s (k :: path)).next st fun x st₁ =>
        HostEvent.pass path callee ⟨d, i, x⟩ ++
          (environment.write callee ⟨d, i, x⟩).next st₁ fun _ st₂ =>
            Binding.log environment s path callee (k + 1) rest st₂
termination_by structural bs => bs

end

/-- The log of a call site: its bindings, and then the end of the call. -/
def Binding.callLog (environment : Environment σ) (s : Surroundings σ) (path : Path)
    (callee : Callee) (bindings : List Binding) (st : Store σ) : List (HostEvent σ) :=
  Binding.log environment s path callee 0 bindings st ++
    (Binding.values s path (environment.write callee) 0 bindings).next st fun arguments st' =>
      HostEvent.call environment path callee
        (callee.gives (st'.memory.get? path) arguments) arguments st'.world

mutual

/-- The log of a decision tree. -/
def Statement.log (environment : Environment σ) (s : Surroundings σ) (path : Path) :
    Statement → Store σ → List (HostEvent σ)
  | .goto _, _ => []
  | .branch condition yes otherwise, st =>
    condition.log environment s (0 :: path) st ++
      (condition.value s (0 :: path)).next st fun b st' =>
        match b with
        | true => yes.log environment s (1 :: path) st'
        | false => otherwise.log environment s (2 :: path) st'

/-- The log of an alternative. -/
def Alternative.log (environment : Environment σ) (s : Surroundings σ) (path : Path) :
    Alternative → Store σ → List (HostEvent σ)
  | .elseIf condition yes otherwise, st =>
    condition.log environment s (0 :: path) st ++
      (condition.value s (0 :: path)).next st fun b st' =>
        match b with
        | true => yes.log environment s (1 :: path) st'
        | false => otherwise.log environment s (2 :: path) st'
  | .last statement, st => statement.log environment s path st

end

/-- The log of an action. -/
def Action.log (environment : Environment σ) (s : Surroundings σ) (path : Path) :
    Action → Store σ → List (HostEvent σ)
  | .activate o bindings, st => Binding.callLog environment s path (.option o) bindings st
  | .behave b bindings, st => Binding.callLog environment s path (.behavior b) bindings st
  | .assign (d := d) k value, st =>
    value.log environment s path st ++ (value.value s path).next st fun x _ => [.stored d k x]

/-! ### Logs of parts -/

/-- The log of a part of an evaluation. -/
def Part.log (environment : Environment σ) (s : Surroundings σ) (part : Part σ) :
    List (HostEvent σ) :=
  part.expression.log environment s part.site part.store

section Parts

variable {environment : Environment σ} {s : Surroundings σ} {path : Path} {st : Store σ}

theorem Expr.connectedLog_eq {op : Connective} {k : Nat} {es : List (Expr .boolean)} :
    Expr.connectedLog environment s path op k es st =
      (Expr.connectedParts s path op k es st).flatMap (Part.log environment s) := by
  induction es generalizing k st with
  | nil => rfl
  | cons e es ih =>
    rw [Expr.connectedLog, Expr.flatMap_connectedParts]
    simp only [ih]
    rfl

/-- **The log of an evaluation is that of its parts.** -/
theorem Expr.log_eq {d : Domain} {e : Expr d} (he : e.asksHost = false) :
    e.log environment s path st = (e.parts s path st).flatMap (Part.log environment s) := by
  cases e with
  | input | output => cases he
  | choice => exact (Expr.flatMap_parts_choice (Part.log environment s)).symm
  | arithmetic | relation | sameElement =>
    exact (Expr.flatMap_pairParts (Part.log environment s)).symm
  | connective => exact Expr.connectedLog_eq
  | not => exact (List.flatMap_singleton ..).symm
  | _ => rfl

/-- What an evaluation lists is listed for one of its parts. -/
theorem Expr.mem_log {d : Domain} {e : Expr d} (he : e.asksHost = false) {event : HostEvent σ} :
    event ∈ e.log environment s path st ↔
      ∃ part ∈ e.parts s path st, event ∈ part.log environment s := by
  rw [Expr.log_eq he, List.mem_flatMap]

/-- What the bindings of a call site list is listed because an argument is passed, or for one of
their expressions. -/
theorem Binding.mem_log {callee : Callee} {k : Nat} {bs : List Binding} {event : HostEvent σ}
    (h : event ∈ Binding.log environment s path callee k bs st) :
    (∃ a : Argument, event ∈ HostEvent.pass path callee a) ∨
      ∃ b ∈ bs, ∃ path' st', event ∈ b.expr.2.log environment s path' st' := by
  induction bs generalizing k st with
  | nil => cases h
  | cons b bs ih =>
    cases b with
    | mk kind j e =>
      rcases mem_append_next.1 h with h | ⟨x, st₁, -, h⟩
      · exact .inr ⟨_, List.mem_cons_self, _, _, h⟩
      · rcases mem_append_next.1 h with h | ⟨_, st₂, -, h⟩
        · exact .inl ⟨_, h⟩
        · exact (ih h).imp_right fun ⟨b, hb, hlisted⟩ => ⟨b, List.mem_cons_of_mem _ hb, hlisted⟩

mutual

theorem Statement.log_eq_asked (path : Path) (t : Statement) (st : Store σ) :
    t.log environment s path st =
      (t.asked s path st).flatMap fun question => question.part.log environment s := by
  cases t with
  | goto => rfl
  | branch condition yes otherwise =>
    rw [Statement.log, Statement.asked, List.flatMap_cons, flatMap_next]
    refine congrArg _ (congrArg _ (funext₂ fun b st₁ => ?_))
    cases b with
    | true => exact Statement.log_eq_asked _ yes st₁
    | false => exact Alternative.log_eq_asked _ otherwise st₁

theorem Alternative.log_eq_asked (path : Path) (t : Alternative) (st : Store σ) :
    t.log environment s path st =
      (t.asked s path st).flatMap fun question => question.part.log environment s := by
  cases t with
  | elseIf condition yes otherwise =>
    rw [Alternative.log, Alternative.asked, List.flatMap_cons, flatMap_next]
    refine congrArg _ (congrArg _ (funext₂ fun b st₁ => ?_))
    cases b with
    | true => exact Statement.log_eq_asked _ yes st₁
    | false => exact Alternative.log_eq_asked _ otherwise st₁
  | last statement => exact Statement.log_eq_asked path statement st

end

/-- **The log of a decision tree is that of the conditions it asks.** -/
theorem Statement.log_eq {t : Statement} :
    t.log environment s path st = (t.parts s path st).flatMap (Part.log environment s) := by
  rw [Statement.log_eq_asked, Statement.parts, List.flatMap_map]

/-- What a decision tree lists is listed for one of its conditions. -/
theorem Statement.mem_log {t : Statement} {event : HostEvent σ} :
    event ∈ t.log environment s path st ↔
      ∃ part ∈ t.parts s path st, event ∈ part.log environment s := by
  rw [Statement.log_eq, List.mem_flatMap]

end Parts

end BehaviorEngine
