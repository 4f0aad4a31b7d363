import BehaviorEngine.Proofs.Grammar.States
import BehaviorEngine.Proofs.Graph.Evaluation
import BehaviorEngine.Proofs.Sites.Log

/-!
The folding of decision trees. A decision tree is written as a plain binary tree; what is built
from it is a chain of conditions wherever an alternative is a branch itself. A `Decision` is the
tree as it is written, with its names resolved, and it is interpreted directly: no chains, no
folding.

Main statement: `statement_folds`. What is built selects what the plain tree selects, asks the same
conditions at the same places in the same order, and does the same at the host; no chain ends in a
branch. All of it goes back to one fact about each way of looking at a statement: the alternative
that a statement makes is looked at like the statement itself.
-/

namespace BehaviorEngine

variable {σ : Type}

/-! ### Folded trees -/

mutual

/-- In a folded tree, every chain of conditions ends in a transition. -/
def Statement.Folded : Statement → Prop
  | .goto _ => True
  | .branch _ yes otherwise => yes.Folded ∧ otherwise.Folded

/-- In a folded alternative, this chain and those inside end in a transition. -/
def Alternative.Folded : Alternative → Prop
  | .elseIf _ yes otherwise => yes.Folded ∧ otherwise.Folded
  | .last statement => ∃ i, statement = .goto i

end

/-! ### The alternative that a statement makes -/

namespace Statement

variable (t : Statement)

@[simp] theorem toAlternative_select (s : Surroundings σ) (path : Path) :
    t.toAlternative.select s path = t.select s path := by
  cases t <;> simp only [toAlternative, Alternative.select, select]

@[simp] theorem toAlternative_asked (s : Surroundings σ) (path : Path) (st : Store σ) :
    t.toAlternative.asked s path st = t.asked s path st := by
  cases t <;> simp only [toAlternative, Alternative.asked, asked]

@[simp] theorem toAlternative_log (environment : Environment σ) (s : Surroundings σ) (path : Path)
    (st : Store σ) : t.toAlternative.log environment s path st = t.log environment s path st := by
  cases t <;> simp only [toAlternative, Alternative.log, log]

@[simp] theorem toAlternative_targets : t.toAlternative.targets = t.targets := by
  cases t <;> simp only [toAlternative, Alternative.targets, targets]

/-- A statement that is a branch continues the chain, and else it is the transition at its end. -/
theorem Folded.toAlternative {t : Statement} (h : t.Folded) : t.toAlternative.Folded := by
  cases t with
  | goto i => exact ⟨i, rfl⟩
  | branch condition yes otherwise => exact h

end Statement

namespace Grammar

/-! ### Plain decision trees -/

/-- A decision tree as it is written, its names resolved. -/
inductive Decision where
  | goto (state : Nat)
  | branch (condition : Expr .boolean) (yes no : Decision)

namespace Decision

/-- The state that a plain tree selects: the condition comes first, and then one of the
branches. -/
def select (s : Surroundings σ) (path : Path) : Decision → Evaluate σ Nat
  | goto state => return state
  | branch condition yes no => do
    if ← condition.value s (0 :: path) then yes.select s (1 :: path) else no.select s (2 :: path)

/-- The conditions that the evaluation of a plain tree asks, in order. -/
def asked (s : Surroundings σ) (path : Path) : Decision → Store σ → List (Question σ)
  | goto _, _ => []
  | branch condition yes no, st =>
    ⟨0 :: path, condition, st⟩ :: (condition.value s (0 :: path)).next st fun b st' =>
      match b with
      | true => yes.asked s (1 :: path) st'
      | false => no.asked s (2 :: path) st'

/-- What the evaluation of a plain tree asks of the host. -/
def log (environment : Environment σ) (s : Surroundings σ) (path : Path) :
    Decision → Store σ → List (HostEvent σ)
  | goto _, _ => []
  | branch condition yes no, st =>
    condition.log environment s (0 :: path) st ++
      (condition.value s (0 :: path)).next st fun b st' =>
        match b with
        | true => yes.log environment s (1 :: path) st'
        | false => no.log environment s (2 :: path) st'

/-- The transitions of a plain tree, in reading order. -/
def leaves : Decision → List Nat
  | goto state => [state]
  | branch _ yes no => yes.leaves ++ no.leaves

/-- The statement that is built from a plain tree. -/
def fold : Decision → Statement
  | goto state => .goto state
  | branch condition yes no => .branch condition yes.fold no.fold.toAlternative

/-- An alternative that is a branch itself continues the chain. -/
example (p q : Expr .boolean) :
    (branch p (goto 0) (branch q (goto 1) (goto 2))).fold =
      .branch p (.goto 0) (.elseIf q (.goto 1) (.last (.goto 2))) := rfl

variable (d : Decision)

/-- **The folded tree selects the same state**, and leaves the same store. -/
theorem fold_select (s : Surroundings σ) (path : Path) :
    d.fold.select s path = d.select s path := by
  induction d generalizing path with
  | goto i => simp only [fold, Statement.select, select]
  | branch condition yes no ihy ihn =>
    simp only [fold, Statement.select, select, Statement.toAlternative_select, ihy, ihn]

/-- **The folded tree asks the same conditions** in the same order. -/
theorem fold_asked (s : Surroundings σ) (path : Path) (st : Store σ) :
    d.fold.asked s path st = d.asked s path st := by
  induction d generalizing path st with
  | goto i => simp only [fold, Statement.asked, asked]
  | branch condition yes no ihy ihn =>
    simp only [fold, Statement.asked, asked]
    congr 2
    funext b st'
    cases b with
    | true => exact ihy _ _
    | false => exact (Statement.toAlternative_asked ..).trans (ihn _ _)

/-- **The folded tree asks the same of the host** in the same order. -/
theorem fold_log (environment : Environment σ) (s : Surroundings σ) (path : Path)
    (st : Store σ) : d.fold.log environment s path st = d.log environment s path st := by
  induction d generalizing path st with
  | goto i => simp only [fold, Statement.log, log]
  | branch condition yes no ihy ihn =>
    simp only [fold, Statement.log, log]
    congr 2
    funext b st'
    cases b with
    | true => exact ihy _ _
    | false => exact (Statement.toAlternative_log ..).trans (ihn _ _)

theorem fold_targets : d.fold.targets = d.leaves := by
  induction d with
  | goto i => simp only [fold, Statement.targets, leaves]
  | branch condition yes no ihy ihn =>
    simp only [fold, Statement.targets, leaves, Statement.toAlternative_targets, ihy, ihn]

/-- No chain of a folded tree ends in a branch. -/
theorem fold_folded : d.fold.Folded := by
  induction d with
  | goto i => exact trivial
  | branch condition yes no ihy ihn => exact ⟨ihy, ihn.toAlternative⟩

end Decision

/-! ### Derivations -/

/-- The transitions of a decision tree as it is written, in reading order. -/
def Tree.leaves : Tree → List String
  | goto state => [state]
  | branch _ yes no => yes.leaves ++ no.leaves

/-- What the names of a decision tree stand for; the shape stays as it is. -/
inductive Tree.Means (c : Context σ) : Tree → Decision → Prop
  | goto {name : String} {i : Nat} (h : c.states[i]? = some name) :
      Tree.Means c (.goto name) (.goto i)
  | branch {condition : Term .boolean} {condition' : Expr .boolean} {yes no : Tree}
      {yes' no' : Decision} (hc : Term.Denotes c none condition condition')
      (hy : Tree.Means c yes yes') (hn : Tree.Means c no no') :
      Tree.Means c (.branch condition yes no) (.branch condition' yes' no')

variable {c : Context σ}

/-- A statement that a tree denotes is folded from the plain tree with the same names. -/
theorem Tree.denotes_iff {t : Tree} {built : Statement} :
    t.Denotes c built ↔ ∃ d, t.Means c d ∧ d.fold = built := by
  constructor
  · intro h
    induction h with
    | goto h => exact ⟨_, .goto h, rfl⟩
    | branch hc _ _ ihy ihn =>
      obtain ⟨yes, hy, rfl⟩ := ihy
      obtain ⟨no, hn, rfl⟩ := ihn
      exact ⟨_, .branch hc hy hn, rfl⟩
  · rintro ⟨d, h, rfl⟩
    induction h with
    | goto h => exact .goto h
    | branch hc _ _ ihy ihn => exact .branch hc ihy ihn

/-- The leaves of a plain tree are the states that the written ones name. -/
theorem Tree.Means.leaves {t : Tree} {d : Decision} (h : t.Means c d) :
    d.leaves.map (c.states[·]?) = t.leaves.map some := by
  induction h with
  | goto h => simp only [Decision.leaves, Tree.leaves, List.map_cons, List.map_nil, h]
  | branch _ _ _ ihy ihn =>
    simp only [Decision.leaves, Tree.leaves, List.map_append, ihy, ihn]

open Construct

/-- A statement is built from each tree that its words derive. The nesting that is allowed is of no
account: it decides only whether a statement is built. -/
theorem fold_eq_of_consumes (scope : Scope σ) {n : Nat} {c c' : Cursor} {built : Statement}
    (h : (statement scope n).runOn c = (.ok built, c')) {t : Tree} {d : Decision}
    (ht : c.Consumes t.words c') (hd : t.Means scope.context d) : d.fold = built := by
  obtain ⟨_, hc, t₀, rfl, hn, h₀⟩ := (reads_statement scope n).consumes h
  let m := max n t.depth
  -- with room for both trees, both are results of one construction
  obtain ⟨_, rfl, hb⟩ := (reads_statement scope m c built c').2
    ⟨_, hc, t₀, rfl, Nat.le_trans hn (Nat.le_max_left _ _), h₀⟩
  obtain ⟨_, rfl, hf⟩ := (reads_statement scope m c d.fold c').2
    ⟨_, ht, t, rfl, Nat.le_max_right _ _, Tree.denotes_iff.2 ⟨d, hd, rfl⟩⟩
  have heq := hf.symm.trans hb
  exact Except.ok.inj (congrArg Prod.fst heq)

/-- **Folding preserves meaning.** A statement that is built has a derivation, a plain tree. Of
every such tree: in all surroundings, at every place and with every store, the statement selects
the same state as the plain tree and leaves the same store, asks the same conditions in the same
order, and asks the same of the host. Every chain of the statement ends in a transition, its
targets are the leaves of the tree in reading order, and what it selects is one of them. -/
theorem statement_folds (scope : Scope σ) (n : Nat) {c c' : Cursor} {built : Statement}
    (h : (statement scope n).runOn c = (.ok built, c')) :
    (∃ t d, c.Consumes (Tree.words t) c' ∧ t.Means scope.context d) ∧
    ∀ t d, c.Consumes (Tree.words t) c' → t.Means scope.context d →
      (∀ (environment : Environment σ) s path st,
        built.select s path st = d.select s path st ∧
        built.asked s path st = d.asked s path st ∧
        built.log environment s path st = d.log environment s path st) ∧
      built.Folded ∧
      built.targets = d.leaves ∧
      built.targets.map (scope.states.names[·]?) = t.leaves.map some ∧
      ∀ (s : Surroundings σ) path st i st',
        built.select s path st = some (i, st') → i ∈ built.targets := by
  constructor
  · obtain ⟨_, hc, t, rfl, -, ht⟩ := (reads_statement scope n).consumes h
    obtain ⟨d, hd, -⟩ := Tree.denotes_iff.1 ht
    exact ⟨t, d, hc, hd⟩
  · intro t d ht hd
    obtain rfl := fold_eq_of_consumes scope h ht hd
    refine ⟨fun environment s path st => ⟨?_, ?_, ?_⟩, d.fold_folded, d.fold_targets, ?_, ?_⟩
    · rw [d.fold_select]
    · rw [d.fold_asked]
    · rw [d.fold_log]
    · rw [d.fold_targets]
      exact hd.leaves
    · intro s path st i st' hi
      exact Statement.select_mem_targets hi

/-- The body of an option with three states. -/
def junction : Scope Unit where
  limits := Limits.standard
  symbols := (Environment.empty : Environment Unit).symbols
  behaviors := Registry.empty
  options := Registry.empty
  parameters := Parameters.none
  states := ⟨[("a", ()), ("b", ()), ("c", ())], by decide⟩

/-- Two branches in a row. -/
def crossing : Cursor := Cursor.ofSource "i v false t a i v true t b t c" Limits.standard

theorem statement_folds_crossing : ∃ built c' t d,
    (statement junction 3).runOn crossing = (.ok built, c') ∧
    crossing.Consumes (Tree.words t) c' ∧ t.Means junction.context d ∧
    built.Folded ∧ built.targets = d.leaves ∧ built.targets = [0, 1, 2] ∧
    ∀ (s : Surroundings Unit) path st, built.select s path st = d.select s path st := by
  have hsome : ((statement junction 3).runOn crossing).1.toOption.map Statement.targets =
      some [0, 1, 2] := by
    decide +kernel
  rcases h : (statement junction 3).runOn crossing with ⟨e | built, c'⟩
  · rw [h] at hsome
    cases hsome
  · rw [h] at hsome
    obtain ⟨⟨t, d, ht, hd⟩, hlaw⟩ := statement_folds junction 3 h
    obtain ⟨hsame, hfolded, htargets, -, -⟩ := hlaw t d ht hd
    refine ⟨built, c', t, d, rfl, ht, hd, hfolded, htargets, Option.some_inj.1 hsome, ?_⟩
    intro s path st
    exact (hsame Environment.empty s path st).1

end Grammar

end BehaviorEngine
