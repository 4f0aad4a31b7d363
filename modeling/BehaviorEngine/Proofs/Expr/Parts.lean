import BehaviorEngine.Proofs.Partial
import BehaviorEngine.Proofs.Expr.Operands

/-!
The parts of an evaluation. Call sites and output symbols ask the host for something; an expression
of another form only evaluates some of its operands, one after the other, each from the store that
the one before it has left. So a statement about evaluations is proved for call sites, for output
symbols, and for one part after another. The parts of the evaluation of a decision tree are the
conditions that it asks.
-/

namespace BehaviorEngine

open Partial

variable {σ : Type}

/-! ### What follows an evaluation -/

namespace Evaluate

variable {α ε : Type} {x : Evaluate σ α} {st st' : Store σ} {f : α → Store σ → List ε}

/-- The events that follow an evaluation, if it has a value. -/
def next (x : Evaluate σ α) (st : Store σ) (f : α → Store σ → List ε) : List ε :=
  match x st with
  | some (a, st') => f a st'
  | none => []

theorem next_eq {a : α} (h : x st = some (a, st')) (f : α → Store σ → List ε) :
    x.next st f = f a st' := by
  simp [next, h]

theorem mem_next {e : ε} : e ∈ x.next st f ↔ ∃ a st', x st = some (a, st') ∧ e ∈ f a st' := by
  unfold next
  split
  · next a st' h => simp [h]
  · next h => simp [h]

theorem mem_append_next {xs : List ε} {e : ε} :
    e ∈ xs ++ x.next st f ↔ e ∈ xs ∨ ∃ a st', x st = some (a, st') ∧ e ∈ f a st' := by
  rw [List.mem_append, mem_next]

theorem flatMap_next {δ : Type} (g : ε → List δ) :
    (x.next st f).flatMap g = x.next st fun a st' => (f a st').flatMap g := by
  unfold next
  split <;> rfl

end Evaluate

/-! ### Parts -/

/-- A part of an evaluation: an expression that is evaluated at a path, from a store. -/
structure Part (σ : Type) where
  {domain : Domain}
  site : Path
  expression : Expr domain
  store : Store σ

/-- The value of a part, and the store that it leaves. -/
def Part.value (s : Surroundings σ) (part : Part σ) : Option (part.domain.Value × Store σ) :=
  part.expression.value s part.site part.store

/-- A part has a value. -/
def Part.Succeeds (s : Surroundings σ) (part : Part σ) : Prop :=
  Partial.Succeeds (part.expression.value s part.site) part.store

namespace Expr

/-- Whether an expression itself asks the host for something, besides what its operands do. -/
def asksHost : {d : Domain} → Expr d → Bool
  | _, .input .. => true
  | _, .output .. => true
  | _, _ => false

/-- The parts of the evaluation of the operands of a connective from the `k`-th on. -/
def connectedParts (s : Surroundings σ) (path : Path) (op : Connective) (k : Nat) :
    List (Expr .boolean) → Store σ → List (Part σ)
  | [], _ => []
  | operand :: rest, st =>
    ⟨k :: path, operand, st⟩ :: (operand.value s (k :: path)).next st fun x st' =>
      if x = op.unit then connectedParts s path op (k + 1) rest st' else []

/-- The evaluation of two operands. -/
def pairParts (s : Surroundings σ) (path : Path) {d : Domain} (left right : Expr d)
    (st : Store σ) : List (Part σ) :=
  ⟨0 :: path, left, st⟩ :: (left.value s (0 :: path)).next st fun _ st' =>
    [⟨1 :: path, right, st'⟩]

/-- **The parts of the evaluation of an expression**: the operands that are evaluated, in order. -/
def parts (s : Surroundings σ) (path : Path) : {d : Domain} → Expr d → Store σ → List (Part σ)
  | _, .choice condition yes no, st =>
    ⟨0 :: path, condition, st⟩ :: (condition.value s (0 :: path)).next st fun b st' =>
      match b with
      | true => [⟨1 :: path, yes, st'⟩]
      | false => [⟨2 :: path, no, st'⟩]
  | _, .arithmetic _ left right, st => pairParts s path left right st
  | _, .connective op operands, st => connectedParts s path op 0 operands st
  | _, .not operand, st => [⟨0 :: path, operand, st⟩]
  | _, .relation _ left right, st => pairParts s path left right st
  | _, .sameElement left right, st => pairParts s path left right st
  | _, _, _ => []

end Expr

/-- **One part after another**: parts lead from a store to the one that the last of them leaves. -/
inductive Leads (s : Surroundings σ) : Store σ → List (Part σ) → Store σ → Prop
  | nil (st : Store σ) : Leads s st [] st
  | cons {p : Part σ} {rest : List (Part σ)} {x : p.domain.Value} {st₁ st' : Store σ}
      (h : p.value s = some (x, st₁)) (hrest : Leads s st₁ rest st') :
      Leads s p.store (p :: rest) st'

section Parts

variable {s : Surroundings σ} {path : Path} {d : Domain} {st st' : Store σ}

/-- **What every part keeps** holds wherever a part begins, and at the end. -/
theorem Leads.invariant {I : Store σ → Prop} {parts : List (Part σ)} (h : Leads s st parts st')
    (hst : I st) (hparts : ∀ part ∈ parts, ∀ {x st₁}, part.value s = some (x, st₁) →
      I part.store → I st₁) : (∀ part ∈ parts, I part.store) ∧ I st' := by
  induction h with
  | nil => exact ⟨nofun, hst⟩
  | cons hvalue _ ih =>
    rw [List.forall_mem_cons] at hparts
    obtain ⟨hrest, hlast⟩ := ih (hparts.1 hvalue hst) hparts.2
    exact ⟨List.forall_mem_cons.2 ⟨hst, hrest⟩, hlast⟩

theorem Leads.exists_value {parts : List (Part σ)} (h : Leads s st parts st') :
    ∀ part ∈ parts, ∃ x st₁, part.value s = some (x, st₁) := by
  induction h with
  | nil => exact nofun
  | cons hvalue _ ih => exact List.forall_mem_cons.2 ⟨⟨_, _, hvalue⟩, ih⟩

theorem Leads.single {p : Part σ} {x : p.domain.Value} (h : p.value s = some (x, st')) :
    Leads s p.store [p] st' := .cons h (.nil _)

namespace Expr

variable {e : Expr d} {part : Part σ}

theorem mem_of_mem_connectedParts {op : Connective} {k : Nat} {es : List (Expr .boolean)}
    (h : part ∈ connectedParts s path op k es st) :
    ⟨part.domain, part.expression⟩ ∈ es.map fun e => (⟨.boolean, e⟩ : Σ d, Expr d) := by
  induction es generalizing k st with
  | nil => cases h
  | cons e es ih =>
    rcases List.mem_cons.1 h with rfl | h
    · exact List.mem_cons_self
    · obtain ⟨x, st₁, -, h⟩ := Evaluate.mem_next.1 h
      split at h
      · exact List.mem_cons_of_mem _ (ih h)
      · cases h

theorem mem_of_mem_pairParts {l r : Expr d} (h : part ∈ pairParts s path l r st) :
    ⟨part.domain, part.expression⟩ ∈ [(⟨d, l⟩ : Σ d, Expr d), ⟨d, r⟩] := by
  rcases List.mem_cons.1 h with rfl | h
  · exact List.mem_cons_self
  · obtain ⟨x, st₁, -, h⟩ := Evaluate.mem_next.1 h
    obtain rfl := List.mem_singleton.1 h
    exact List.mem_cons_of_mem _ List.mem_cons_self

/-- The parts of an evaluation are operands. -/
theorem mem_operands_of_mem_parts (h : part ∈ e.parts s path st) :
    ⟨part.domain, part.expression⟩ ∈ e.operands := by
  cases e with
  | choice c y n =>
    rcases List.mem_cons.1 h with rfl | h
    · exact List.mem_cons_self
    · obtain ⟨b, st₁, -, h⟩ := Evaluate.mem_next.1 h
      cases b <;> obtain rfl := List.mem_singleton.1 h <;> simp [operands]
  | arithmetic | relation | sameElement => exact mem_of_mem_pairParts h
  | connective => exact mem_of_mem_connectedParts h
  | not =>
    obtain rfl := List.mem_singleton.1 h
    exact List.mem_cons_self
  | _ => cases h

section Traversals

variable {ε : Type} (g : Part σ → List ε)

/-- What is listed for the parts, one after another. -/
theorem flatMap_connectedParts {op : Connective} {k : Nat} {e : Expr .boolean}
    {es : List (Expr .boolean)} : (connectedParts s path op k (e :: es) st).flatMap g =
      g ⟨k :: path, e, st⟩ ++ (e.value s (k :: path)).next st fun x st' =>
        if x = op.unit then (connectedParts s path op (k + 1) es st').flatMap g else [] := by
  rw [connectedParts, List.flatMap_cons, Evaluate.flatMap_next]
  simp only [apply_ite (List.flatMap g), List.flatMap_nil]

theorem flatMap_pairParts {l r : Expr d} : (pairParts s path l r st).flatMap g =
    g ⟨0 :: path, l, st⟩ ++ (l.value s (0 :: path)).next st fun _ st' =>
      g ⟨1 :: path, r, st'⟩ := by
  rw [pairParts, List.flatMap_cons, Evaluate.flatMap_next]
  simp only [List.flatMap_singleton]

theorem flatMap_parts_choice {c : Expr .boolean} {y n : Expr d} :
    ((choice c y n).parts s path st).flatMap g =
      g ⟨0 :: path, c, st⟩ ++ (c.value s (0 :: path)).next st fun b st' =>
        match b with
        | true => g ⟨1 :: path, y, st'⟩
        | false => g ⟨2 :: path, n, st'⟩ := by
  rw [parts, List.flatMap_cons, Evaluate.flatMap_next]
  refine congrArg _ (congrArg _ (funext₂ fun b st₁ => ?_))
  cases b <;> exact List.flatMap_singleton ..

end Traversals

theorem leads_connected {op : Connective} {k : Nat} {es : List (Expr .boolean)} {x : Bool}
    (h : connected s path op k es st = some (x, st')) :
    Leads s st (connectedParts s path op k es st) st' := by
  induction es generalizing k st with
  | nil =>
    obtain ⟨-, rfl⟩ := pure_eq_some.1 h
    exact .nil _
  | cons e es ih =>
    obtain ⟨b, st₁, he, h⟩ := bind_eq_some.1 h
    rw [connectedParts, Evaluate.next_eq he]
    refine .cons (p := ⟨k :: path, e, st⟩) he ?_
    split at h
    · next hu =>
      rw [if_pos hu]
      exact ih h
    · next hu =>
      rw [if_neg hu]
      obtain ⟨-, rfl⟩ := pure_eq_some.1 h
      exact .nil _

theorem leads_pair {β : Type} {l r : Expr d} {f : d.Value → d.Value → β} {x : β}
    (h : (do
      let a ← l.value s (0 :: path)
      let b ← r.value s (1 :: path)
      return f a b : Evaluate σ β) st = some (x, st')) :
    Leads s st (pairParts s path l r st) st' := by
  obtain ⟨_, st₁, _, hl, hr, -⟩ := pair_eq_some.1 h
  rw [pairParts, Evaluate.next_eq hl]
  exact .cons (p := ⟨0 :: path, l, st⟩) hl (.single (p := ⟨1 :: path, r, st₁⟩) hr)

/-- **An evaluation is that of its parts, one after another.** -/
theorem leads (he : e.asksHost = false) {x : d.Value} (h : e.value s path st = some (x, st')) :
    Leads s st (e.parts s path st) st' := by
  cases e with
  | input | output => cases he
  | literal | stateTime | optionTime =>
    obtain ⟨-, rfl⟩ := pure_eq_some.1 h
    exact .nil _
  | parameter | reachedTarget =>
    obtain ⟨-, rfl⟩ := lift_eq_some.1 h
    exact .nil _
  | choice c y n =>
    obtain ⟨b, st₁, hc, h⟩ := bind_eq_some.1 h
    rw [parts, Evaluate.next_eq hc]
    refine .cons (p := ⟨0 :: path, c, st⟩) hc ?_
    cases b with
    | true => exact .single (p := ⟨1 :: path, y, st₁⟩) h
    | false => exact .single (p := ⟨2 :: path, n, st₁⟩) h
  | arithmetic | relation | sameElement => exact leads_pair h
  | connective => exact leads_connected h
  | not e =>
    obtain ⟨_, st₁, he, h⟩ := bind_eq_some.1 h
    obtain ⟨-, rfl⟩ := pure_eq_some.1 h
    exact .single (p := ⟨0 :: path, e, st⟩) he

end Expr

end Parts

/-! ### Decision trees -/

/-- A condition that is evaluated: where it stands, and what it finds. -/
structure Question (σ : Type) where
  site : Path
  condition : Expr .boolean
  store : Store σ

mutual

/-- **The conditions that the evaluation of a decision tree asks**, in order. -/
def Statement.asked (s : Surroundings σ) (path : Path) : Statement → Store σ → List (Question σ)
  | .goto _, _ => []
  | .branch condition yes otherwise, st =>
    ⟨0 :: path, condition, st⟩ :: (condition.value s (0 :: path)).next st fun b st' =>
      match b with
      | true => yes.asked s (1 :: path) st'
      | false => otherwise.asked s (2 :: path) st'

/-- The conditions that the evaluation of an alternative asks, in order. -/
def Alternative.asked (s : Surroundings σ) (path : Path) :
    Alternative → Store σ → List (Question σ)
  | .elseIf condition yes otherwise, st =>
    ⟨0 :: path, condition, st⟩ :: (condition.value s (0 :: path)).next st fun b st' =>
      match b with
      | true => yes.asked s (1 :: path) st'
      | false => otherwise.asked s (2 :: path) st'
  | .last statement, st => statement.asked s path st

end

/-- The evaluation of a condition. -/
def Question.part (question : Question σ) : Part σ :=
  ⟨question.site, question.condition, question.store⟩

/-- The parts of the evaluation of a decision tree: the conditions that it asks. -/
def Statement.parts (s : Surroundings σ) (path : Path) (t : Statement) (st : Store σ) :
    List (Part σ) :=
  (t.asked s path st).map Question.part

/-- The parts of the evaluation of an alternative. -/
def Alternative.parts (s : Surroundings σ) (path : Path) (t : Alternative) (st : Store σ) :
    List (Part σ) :=
  (t.asked s path st).map Question.part

section Trees

variable {s : Surroundings σ}

mutual

/-- The parts of the evaluation of a decision tree are conditions of the tree. -/
theorem Statement.mem_exprs_of_mem_asked {path : Path} {t : Statement} {st : Store σ}
    {question : Question σ} (h : question ∈ t.asked s path st) :
    ⟨.boolean, question.condition⟩ ∈ t.exprs := by
  cases t with
  | goto => cases h
  | branch condition yes otherwise =>
    rcases List.mem_cons.1 h with rfl | h
    · exact List.mem_cons_self
    · obtain ⟨b, st₁, -, h⟩ := Evaluate.mem_next.1 h
      refine List.mem_cons_of_mem _ (List.mem_append.2 ?_)
      cases b with
      | true => exact .inl (Statement.mem_exprs_of_mem_asked h)
      | false => exact .inr (Alternative.mem_exprs_of_mem_asked h)

theorem Alternative.mem_exprs_of_mem_asked {path : Path} {t : Alternative} {st : Store σ}
    {question : Question σ} (h : question ∈ t.asked s path st) :
    ⟨.boolean, question.condition⟩ ∈ t.exprs := by
  cases t with
  | elseIf condition yes otherwise =>
    rcases List.mem_cons.1 h with rfl | h
    · exact List.mem_cons_self
    · obtain ⟨b, st₁, -, h⟩ := Evaluate.mem_next.1 h
      refine List.mem_cons_of_mem _ (List.mem_append.2 ?_)
      cases b with
      | true => exact .inl (Statement.mem_exprs_of_mem_asked h)
      | false => exact .inr (Alternative.mem_exprs_of_mem_asked h)
  | last statement => exact Statement.mem_exprs_of_mem_asked (t := statement) h

end

theorem Statement.mem_exprs_of_mem_parts {path : Path} {t : Statement} {st : Store σ}
    {part : Part σ} (h : part ∈ t.parts s path st) : ⟨part.domain, part.expression⟩ ∈ t.exprs := by
  obtain ⟨question, hq, rfl⟩ := List.mem_map.1 h
  exact Statement.mem_exprs_of_mem_asked hq

mutual

/-- **A decision tree is evaluated condition after condition.** -/
theorem Statement.leads {path : Path} {t : Statement} {st st' : Store σ} {i : Nat}
    (h : t.select s path st = some (i, st')) : Leads s st (t.parts s path st) st' := by
  cases t with
  | goto =>
    obtain ⟨-, rfl⟩ := pure_eq_some.1 h
    exact .nil _
  | branch condition yes otherwise =>
    obtain ⟨b, st₁, hc, h⟩ := bind_eq_some.1 h
    rw [Statement.parts, Statement.asked, Evaluate.next_eq hc, List.map_cons]
    refine .cons (p := ⟨0 :: path, condition, st⟩) hc ?_
    cases b with
    | true => exact Statement.leads h
    | false => exact Alternative.leads h

theorem Alternative.leads {path : Path} {t : Alternative} {st st' : Store σ} {i : Nat}
    (h : t.select s path st = some (i, st')) : Leads s st (t.parts s path st) st' := by
  cases t with
  | elseIf condition yes otherwise =>
    obtain ⟨b, st₁, hc, h⟩ := bind_eq_some.1 h
    rw [Alternative.parts, Alternative.asked, Evaluate.next_eq hc, List.map_cons]
    refine .cons (p := ⟨0 :: path, condition, st⟩) hc ?_
    cases b with
    | true => exact Statement.leads h
    | false => exact Alternative.leads h
  | last statement => exact Statement.leads (t := statement) h

end

end Trees

end BehaviorEngine
