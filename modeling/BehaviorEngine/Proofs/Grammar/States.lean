import BehaviorEngine.Proofs.Grammar.Expressions
import BehaviorEngine.Proofs.Grammar.Programs

/-!
The languages of decision trees, actions and states. Their expressions may be nested as deep as the
limits allow; the levels of a decision tree are counted together with those of its conditions.
-/

namespace BehaviorEngine

namespace Grammar

open Construct

variable {σ : Type} (scope : Scope σ)

/-! ### Decision trees -/

theorem tag?_eq_some_iff {w : Word} {c : Char} : w.tag? = some c ↔ w.text = String.ofList [c] := by
  simpa using tag?_bind_eq_some_iff (w := w) (f := some) (x := c)

section Trees

variable {n : Nat} {tag : Word}

/-- A transition to a state, behind its tag. -/
theorem reads_goto (htag : tag.text = "t") :
    Reads id (do
        let name ← word
        let (i, _) ← resolve .state scope.states name
        return Statement.goto i)
      (fun us s => ∃ t : Tree, t.words = tag.text :: us ∧ t.depth ≤ n + 1 ∧
        t.Denotes scope.context s) := by
  refine (Reads.word_bind (fun _ _ _ => rfl) fun name => Reads.resolve_bind fun i _ =>
    Reads.pure id (Statement.goto i)).congr fun us s => ?_
  constructor
  · rintro ⟨name, _, rfl, i, _, hi, rfl, rfl⟩
    refine ⟨.goto name, by rw [htag]; rfl, by simp [Tree.depth], .goto ?_⟩
    simp [Scope.context, Registry.names_getElem?, hi]
  · rintro ⟨t, hw, -, ht⟩
    cases ht with
    | goto hi =>
      obtain ⟨-, rfl⟩ := List.cons.inj hw
      simp only [Scope.context, Registry.names_getElem?, Option.map_eq_some_iff] at hi
      obtain ⟨⟨_, u⟩, hi, rfl⟩ := hi
      exact ⟨_, [], rfl, _, u, hi, rfl, rfl⟩
    | branch =>
      rw [htag] at hw
      exact absurd (List.cons.inj hw).1 (by decide)

/-- A condition and two decision trees, behind their tag. -/
theorem reads_branch (htag : tag.text = "i") (ih : Reads id (statement scope n)
      (fun ts s => ∃ t : Tree, t.words = ts ∧ t.depth ≤ n ∧ t.Denotes scope.context s)) :
    Reads id (do
        let condition ← expression scope n .boolean none
        let yes ← statement scope n
        let no ← statement scope n
        return Statement.branch condition yes no.toAlternative)
      (fun us s => ∃ t : Tree, t.words = tag.text :: us ∧ t.depth ≤ n + 1 ∧
        t.Denotes scope.context s) := by
  refine ((reads_expression scope n .boolean none).seq fun condition => ih.seq fun yes =>
    ih.seq_pure fun no => Statement.branch condition yes no.toAlternative).congr fun us s => ?_
  constructor
  · rintro ⟨_, _, condition, rfl, ⟨tc, rfl, hc, hdc⟩, _, _, yes, rfl, ⟨ty, rfl, hy, hdy⟩, no,
      ⟨tn, rfl, hn, hdn⟩, rfl⟩
    refine ⟨.branch tc ty tn, by rw [htag]; rfl, ?_, .branch hdc hdy hdn⟩
    rw [Tree.depth]; omega
  · rintro ⟨t, hw, hn, ht⟩
    cases ht with
    | goto =>
      rw [htag] at hw
      exact absurd (List.cons.inj hw).1 (by decide)
    | branch hdc hdy hdn =>
      rw [Tree.depth] at hn
      obtain ⟨-, rfl⟩ := List.cons.inj hw
      exact ⟨_, _, _, rfl, ⟨_, rfl, by omega, hdc⟩, _, _, _, rfl, ⟨_, rfl, by omega, hdy⟩, _,
        ⟨_, rfl, by omega, hdn⟩, rfl⟩

end Trees

/-- **The language of decision trees**, at most `n` levels deep. -/
theorem reads_statement (n : Nat) :
    Reads id (statement scope n)
      (fun ts s => ∃ t : Tree, t.words = ts ∧ t.depth ≤ n ∧ t.Denotes scope.context s) := by
  induction n with
  | zero =>
    refine (Reads.of_error fun c => ⟨_, c, rfl⟩).congr fun ts s => ?_
    constructor
    · exact False.elim
    · rintro ⟨t, -, hn, -⟩
      cases t <;> simp [Tree.depth] at hn
  | succ n ih =>
    refine (Reads.word_bind (N := fun tag us s => ∃ t : Tree, t.words = tag.text :: us ∧
      t.depth ≤ n + 1 ∧ t.Denotes scope.context s) (fun _ _ _ => rfl) fun tag => ?_).congr
      fun ts s => ?_
    · split
      · next htag => exact reads_goto scope (tag?_eq_some_iff.1 htag)
      · next htag => exact reads_branch scope (tag?_eq_some_iff.1 htag) ih
      · next ht hi =>
        refine (Reads.fail id _ _).congr fun us s => ?_
        constructor
        · exact False.elim
        · rintro ⟨t, hw, -⟩
          cases t with
          | goto =>
            exact ht (tag?_eq_some_iff.2 (List.cons.inj hw).1.symm)
          | branch =>
            exact hi (tag?_eq_some_iff.2 (List.cons.inj hw).1.symm)
    · constructor
      · rintro ⟨_, _, rfl, h⟩
        exact h
      · rintro ⟨t, rfl, h⟩
        cases t <;> exact ⟨_, _, rfl, _, rfl, h⟩

/-! ### Actions -/

/-- The tag of a form of actions. -/
def actionTag : ActionForm → String
  | .activate => "o"
  | .behave => "a"
  | .assign d => domainTag d

theorem actionForm_ofTag?_iff {w : Word} {form : ActionForm} :
    w.tag?.bind ActionForm.ofTag? = some form ↔ w.text = actionTag form := by
  rw [tag?_bind_eq_some_iff]
  constructor
  · rintro ⟨c, hc, h⟩
    unfold ActionForm.ofTag? at h
    split at h
    · cases h; exact hc
    · cases h; exact hc
    · obtain ⟨d, hd, rfl⟩ := Option.map_eq_some_iff.1 h
      exact domain_ofTag?_iff.1 (tag?_bind_eq_some_iff.2 ⟨c, hc, hd⟩)
  · intro h
    cases form with
    | activate => exact ⟨_, h, rfl⟩
    | behave => exact ⟨_, h, rfl⟩
    | assign d => cases d <;> exact ⟨_, h, rfl⟩

/-- The form of an action. -/
def Deed.form : Deed → ActionForm
  | .activate _ _ _ => .activate
  | .behave _ _ _ => .behave
  | .assign d _ _ => .assign d

theorem actionTag_injective : Function.Injective actionTag := by
  have h : ∀ d, domainTag d ≠ "o" ∧ domainTag d ≠ "a" := by
    intro d
    cases d <;> decide
  intro f g e
  cases f <;> cases g
  case activate.activate | behave.behave => rfl
  case activate.behave | behave.activate => exact absurd e (by decide)
  case activate.assign d => exact absurd e.symm (h d).1
  case behave.assign d => exact absurd e.symm (h d).2
  case assign.activate d => exact absurd e (h d).1
  case assign.behave d => exact absurd e (h d).2
  case assign.assign d d' => rw [domainTag_injective e]

theorem options_getElem? {i : Nat} {name : String} {p : Parameters Unit} :
    scope.context.options.entries[i]? = some (name, p) ↔
      ∃ header, scope.options.entries[i]? = some (name, header) ∧ header.parameters = p := by
  simp [Scope.context, Registry.entries_map]

theorem Deed.words_eq (x : Deed) : ∃ ts, x.words = actionTag x.form :: ts := by
  cases x <;> exact ⟨_, rfl⟩

theorem form_eq_of_deed {x : Deed} {tag : Word} {form : ActionForm} {us : List String}
    (htag : tag.text = actionTag form) (h : x.words = tag.text :: us) : x.form = form := by
  obtain ⟨ts, hts⟩ := x.words_eq
  rw [hts, htag] at h
  exact actionTag_injective (List.cons.inj h).1

section Actions

variable {tag name : Word} {node : Enclosing} {span : Span}

/-- The activation of an option, behind its tag and the name of the option. -/
theorem reads_activate (htag : tag.text = actionTag .activate) :
    Reads id (do
        let (i, header) ← resolve .option scope.options name
        let bound ← within node span
          (arguments (expression scope scope.limits.nestingDepth) header.parameters name.text)
        return Action.activate i bound)
      (fun us a => ∃ x : Deed, x.words = tag.text :: name.text :: us ∧
        x.depth ≤ scope.limits.nestingDepth ∧ x.Denotes scope.context a) := by
  refine (Reads.resolve_bind fun i header => ((reads_arguments (reads_expression scope _)
    header.parameters name.text).within _ _).seq_pure (Action.activate i)).congr fun us a => ?_
  constructor
  · rintro ⟨i, header, hi, _, ⟨count, as, rfl, hn, bs, hb, rfl⟩, rfl⟩
    rw [htag]
    exact ⟨.activate name.text count as, rfl, hn,
      .activate ((options_getElem? scope).2 ⟨header, hi, rfl⟩) hb⟩
  · rintro ⟨x, hw, hn, hx⟩
    have hform := form_eq_of_deed htag hw
    cases hx with
    | activate ho hb =>
      obtain ⟨-, rfl, rfl⟩ : _ ∧ _ = name.text ∧ _ = us := by simpa [Deed.words] using hw
      obtain ⟨header, hi, rfl⟩ := (options_getElem? scope).1 ho
      exact ⟨_, header, hi, _, ⟨_, _, rfl, hn, _, hb, rfl⟩, rfl⟩
    | behave | assign => cases hform

/-- The run of a basic behavior, behind its tag and the name of the behavior. -/
theorem reads_behave (htag : tag.text = actionTag .behave) :
    Reads id (do
        let (i, behavior) ← resolve .basicBehavior scope.behaviors name
        let bound ← within node span
          (arguments (expression scope scope.limits.nestingDepth) behavior.parameters name.text)
        return Action.behave i bound)
      (fun us a => ∃ x : Deed, x.words = tag.text :: name.text :: us ∧
        x.depth ≤ scope.limits.nestingDepth ∧ x.Denotes scope.context a) := by
  refine (Reads.resolve_bind fun i behavior => ((reads_arguments (reads_expression scope _)
    behavior.parameters name.text).within _ _).seq_pure (Action.behave i)).congr fun us a => ?_
  constructor
  · rintro ⟨i, behavior, hi, _, ⟨count, as, rfl, hn, bs, hb, rfl⟩, rfl⟩
    rw [htag]
    exact ⟨.behave name.text count as, rfl, hn, .behave hi hb⟩
  · rintro ⟨x, hw, hn, hx⟩
    have hform := form_eq_of_deed htag hw
    cases hx with
    | behave ho hb =>
      obtain ⟨-, rfl, rfl⟩ : _ ∧ _ = name.text ∧ _ = us := by simpa [Deed.words] using hw
      exact ⟨_, _, ho, _, ⟨_, _, rfl, hn, _, hb, rfl⟩, rfl⟩
    | activate | assign => cases hform

/-- An assignment, behind the tag of its domain and the name of the output symbol. -/
theorem reads_assign {d : Domain} (htag : tag.text = actionTag (.assign d)) :
    Reads id (do
        let (i, symbol) ← resolve (.outputSymbol d) (scope.symbols.outputs.get d) name
        let value ← within node span
          (expression scope scope.limits.nestingDepth d (some symbol.typing))
        return Action.assign i value)
      (fun us a => ∃ x : Deed, x.words = tag.text :: name.text :: us ∧
        x.depth ≤ scope.limits.nestingDepth ∧ x.Denotes scope.context a) := by
  refine (Reads.resolve_bind fun i symbol => ((reads_expression scope _ d
    (some symbol.typing)).within _ _).seq_pure (Action.assign i)).congr fun us a => ?_
  constructor
  · rintro ⟨i, symbol, hi, value, ⟨t, rfl, hn, ht⟩, rfl⟩
    rw [htag]
    exact ⟨.assign d name.text t, rfl, hn, .assign hi ht⟩
  · rintro ⟨x, hw, hn, hx⟩
    have hform := form_eq_of_deed htag hw
    cases hx with
    | assign hs hv =>
      cases hform
      obtain ⟨-, rfl, rfl⟩ : _ ∧ _ = name.text ∧ _ = us := by simpa [Deed.words] using hw
      exact ⟨_, _, hs, _, ⟨_, rfl, hn, hv⟩, rfl⟩
    | activate | behave => cases hform

end Actions

/-- **The language of actions.** -/
theorem reads_action :
    Reads id (action scope)
      (fun ts a => ∃ x : Deed, x.words = ts ∧ x.depth ≤ scope.limits.nestingDepth ∧
        x.Denotes scope.context a) := by
  refine (Reads.word_bind (fun _ _ _ => rfl) fun tag =>
    Reads.word_bind (N := fun name us a => ∃ x : Deed,
    x.words = tag.text :: name.text :: us ∧ x.depth ≤ scope.limits.nestingDepth ∧
    x.Denotes scope.context a) (fun _ _ _ => rfl) fun name => ?_).congr fun ts a => ?_
  · cases hf : tag.tag?.bind ActionForm.ofTag? with
    | none =>
      refine (Reads.fail id _ _).congr fun us a => ?_
      constructor
      · exact False.elim
      · rintro ⟨x, hw, -⟩
        obtain ⟨ts, hts⟩ := x.words_eq
        rw [hts] at hw
        rw [actionForm_ofTag?_iff.2 (List.cons.inj hw).1.symm] at hf
        cases hf
    | some form =>
      have htag := actionForm_ofTag?_iff.1 hf
      cases form with
      | activate => exact reads_activate scope htag
      | behave => exact reads_behave scope htag
      | assign => exact reads_assign scope htag
  · constructor
    · rintro ⟨_, _, rfl, _, _, rfl, h⟩
      exact h
    · rintro ⟨x, rfl, h⟩
      cases x <;> exact ⟨_, _, rfl, _, _, rfl, _, rfl, h⟩

/-! ### States -/

theorem reads_targetFlag :
    Reads id targetFlag (fun ts b => ts = [if b then "1" else "0"]) := by
  refine (Reads.word_bind (N := fun flag us b => us = [] ∧ flag.text = if b then "1" else "0")
    (fun _ _ _ => rfl) fun flag => ?_).congr fun ts b => ?_
  · split
    · next h => exact (Reads.pure id false).congr (by simp [h])
    · next h => exact (Reads.pure id true).congr (by simp [h])
    · next h₀ h₁ =>
      refine (Reads.fail id _ _).congr fun ts b => ?_
      cases b
      · simpa using fun _ => h₀
      · simpa using fun _ => h₁
  · constructor
    · rintro ⟨_, _, rfl, rfl, rfl⟩
      rfl
    · rintro rfl
      exact ⟨_, [], rfl, rfl, rfl⟩

/-- The language of what follows the name of a state. -/
theorem reads_state (name : String) :
    Reads id (state scope)
      (fun ts s => ∃ t : State, t.words = name :: ts ∧
        t.NestedAtMost scope.limits.nestingDepth ∧ t.Denotes scope.context s) := by
  refine (reads_targetFlag.seq fun isTarget => Reads.count_bind fun n _ =>
    (Reads.many (reads_action scope) n).seq fun actions =>
    (reads_statement scope scope.limits.nestingDepth).seq_pure
      (Graph.State.mk isTarget actions)).congr fun ts s => ?_
  constructor
  · rintro ⟨_, _, isTarget, rfl, rfl, count, _, n, rfl, hn, _, _, actions, rfl,
      ⟨deeds, rfl, rfl, hds⟩, decision, ⟨tree, rfl, hnt, hd⟩, rfl⟩
    have hdeeds : ∀ deed ∈ deeds, deed.depth ≤ scope.limits.nestingDepth :=
      ((List.forall₂_and_left _ _).1 (hds.imp fun _ _ h => h)).1
    refine ⟨⟨name, if isTarget then "1" else "0", count, deeds, tree⟩, ?_, ⟨hdeeds, hnt⟩,
      ⟨rfl, hn, hds.imp fun _ _ h => h.2, hd⟩⟩
    simp [State.words]
  · rintro ⟨t, hw, ⟨hn, hnt⟩, hd⟩
    obtain ⟨-, rfl⟩ := List.cons.inj hw
    exact ⟨[t.flag], _, s.isTarget, rfl, by rw [hd.flag], t.count, _, _, rfl, hd.count, _, _, _,
      rfl, ⟨t.deeds, rfl, rfl, (List.forall₂_and_left _ _).2 ⟨hn, hd.deeds⟩⟩, _,
      ⟨t.decision, rfl, hnt, hd.decision⟩, rfl⟩

end Grammar

end BehaviorEngine
