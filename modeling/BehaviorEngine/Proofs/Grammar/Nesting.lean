import BehaviorEngine.Proofs.Graph.Fits

/-!
The size of what is built. A graph has no names but words of its source, and it is nested exactly as
deep as the sentence that it comes from: the folding of decision trees changes their shape, but an
`else if` counts as a level of its own, as it does where it is written.
-/

namespace BehaviorEngine

variable {σ : Type}

/-! ### Nesting -/

mutual

/-- How deep an expression is nested; an expression without parts counts as one level. -/
def Expr.depth : {d : Domain} → Expr d → Nat
  | _, .literal _ _ => 1
  | _, .parameter _ _ => 1
  | _, .input _ _ bindings => Binding.allDepth bindings + 1
  | _, .output _ _ => 1
  | _, .choice condition yes no => max condition.depth (max yes.depth no.depth) + 1
  | _, .arithmetic _ left right => max left.depth right.depth + 1
  | _, .stateTime => 1
  | _, .optionTime => 1
  | _, .connective _ operands => Expr.allDepth operands + 1
  | _, .not operand => operand.depth + 1
  | _, .relation _ left right => max left.depth right.depth + 1
  | _, .sameElement left right => max left.depth right.depth + 1
  | _, .reachedTarget => 1
termination_by structural _ e => e

/-- How deep the deepest of some expressions is nested. -/
def Expr.allDepth : List (Expr .boolean) → Nat
  | [] => 0
  | e :: es => max e.depth (Expr.allDepth es)
termination_by structural es => es

/-- How deep the deepest of some bound expressions is nested. -/
def Binding.allDepth : List Binding → Nat
  | [] => 0
  | .mk _ _ value :: rest => max value.depth (Binding.allDepth rest)
termination_by structural bs => bs

end

/-- How deep the bound expression is nested. -/
def Binding.depth : Binding → Nat
  | .mk _ _ value => value.depth

theorem Binding.allDepth_le {n : Nat} {bs : List Binding} :
    Binding.allDepth bs ≤ n ↔ ∀ b ∈ bs, b.depth ≤ n := by
  induction bs with
  | nil => simp [Binding.allDepth]
  | cons b bs ih =>
    cases b
    rw [Binding.allDepth, Nat.max_le, ih, List.forall_mem_cons, Binding.depth]

/-- The order of bindings does not matter to how deep they are nested. -/
theorem Binding.allDepth_arrange (bs : List Binding) :
    Binding.allDepth (Binding.arrange bs) = Binding.allDepth bs := by
  apply Nat.le_antisymm
  · refine Binding.allDepth_le.2 fun b hb => ?_
    exact Binding.allDepth_le.1 (Nat.le_refl _) b (Binding.mem_arrange.1 hb)
  · refine Binding.allDepth_le.2 fun b hb => ?_
    exact Binding.allDepth_le.1 (Nat.le_refl _) b (Binding.mem_arrange.2 hb)

mutual

/-- How deep a decision tree is nested, its conditions included. -/
def Statement.depth : Statement → Nat
  | .goto _ => 1
  | .branch condition yes otherwise => max condition.depth (max yes.depth otherwise.depth) + 1

/-- How deep an alternative is nested; every further condition counts as a level. -/
def Alternative.depth : Alternative → Nat
  | .elseIf condition yes otherwise => max condition.depth (max yes.depth otherwise.depth) + 1
  | .last statement => statement.depth

end

theorem Statement.toAlternative_depth (t : Statement) : t.toAlternative.depth = t.depth := by
  cases t <;> simp only [toAlternative, Alternative.depth, depth]

/-- How deep the expressions of an action are nested. -/
def Action.depth : Action → Nat
  | .activate _ bindings => Binding.allDepth bindings
  | .behave _ bindings => Binding.allDepth bindings
  | .assign _ value => value.depth

/-- The expressions and the decision tree of a state are nested at most `n` levels deep. -/
def Graph.State.NestedAtMost (n : Nat) (s : Graph.State) : Prop :=
  (∀ a ∈ s.actions, a.depth ≤ n) ∧ s.decision.depth ≤ n

/-- No expression and no decision tree of a graph is nested deeper than `n` levels. -/
def Graph.NestedAtMost (n : Nat) (g : Graph) : Prop :=
  ∀ node ∈ g.options.values, ∀ s ∈ node.states.values, s.NestedAtMost n

/-! ### Names -/

/-- The names in an option: those of its parameters and states. -/
def Graph.Node.names (n : Graph.Node) : List String :=
  Domain.all.flatMap (fun d => (n.parameters.get d).names) ++ n.states.names

/-- All names in a graph. -/
def Graph.names (g : Graph) : List String :=
  g.options.names ++ g.options.values.flatMap Graph.Node.names ++ g.agents.names

/-! ### What sentences denote -/

namespace Grammar

/-- **What is built is nested as deep as what is written.** -/
theorem Term.Denotes.depth_eq {c : Context σ} {d : Domain} {expected : Option d.Typing}
    {t : Term d} {e : Expr d} (h : t.Denotes c expected e) : e.depth = t.depth := by
  refine @Term.Denotes.rec σ c (fun _ t e _ => e.depth = t.depth)
    (fun ts es _ => Expr.allDepth es = Term.allDepth ts)
    (fun _ as bs _ => Binding.allDepth bs = Assignment.allDepth as)
    ?decimal ?constant ?yes ?no ?element ?parameter ?input ?output ?choice ?arithmetic ?stateTime
    ?optionTime ?connective ?not ?relation ?sameElement ?reachedTarget ?noOperand ?operand
    ?noBinding ?binding d expected t e h
  case decimal | constant | yes | no | element | stateTime | optionTime | reachedTarget |
      parameter | output | noOperand | noBinding =>
    intros
    rfl
  case input =>
    intro _ _ _ _ _ _ _ _ _ _ _ _ _ hdepth
    simp only [Expr.depth, Term.depth, Binding.allDepth_arrange, hdepth]
  case choice =>
    intro _ _ _ _ _ _ _ _ _ _ _ hc hy hn
    simp only [Expr.depth, Term.depth, hc, hy, hn]
  case arithmetic | relation =>
    intro _ _ _ _ _ _ _ _ hl hr
    simp only [Expr.depth, Term.depth, hl, hr]
  case sameElement =>
    intro _ _ _ _ _ _ _ hl hr
    simp only [Expr.depth, Term.depth, hl, hr]
  case connective =>
    intro _ _ _ _ _ _ _ _ ho
    simp only [Expr.depth, Term.depth, ho]
  case not =>
    intro _ _ _ _ ho
    simp only [Expr.depth, Term.depth, ho]
  case operand =>
    intro _ _ _ _ _ _ h hs
    simp only [Expr.allDepth, Term.allDepth, h, hs]
  case binding =>
    intro _ _ _ _ _ _ _ _ _ _ _ _ _ hv hs
    simp only [Binding.allDepth, Assignment.allDepth, hv, hs]

theorem Assignment.Denotes.depth_eq {c : Context σ} {slot : Type} {target : Parameters slot}
    {a : Assignment} {b : Binding} (h : a.Denotes c target b) : b.depth = a.depth := by
  cases h with
  | mk _ hv => exact hv.depth_eq

/-- The bindings of a call site are nested as deep as they are written. -/
theorem Call.depth_le {c : Context σ} {slot : Type} {target : Parameters slot} {count : String}
    {as : List Assignment} {bs : List Binding} (h : Call c target count as bs) {n : Nat}
    (hn : Assignment.allDepth as ≤ n) : Binding.allDepth (Binding.arrange bs) ≤ n := by
  rw [Binding.allDepth_arrange]
  refine Binding.allDepth_le.2 fun b hb => ?_
  obtain ⟨a, ha, hab⟩ := exists_of_forall₂ (Assignment.allDenote_iff.1 h.arguments) hb
  rw [hab.depth_eq]
  exact Assignment.allDepth_le.1 hn a ha

/-- Folding does not change how deep a decision tree is nested. -/
theorem Tree.Denotes.depth_eq {c : Context σ} {t : Tree} {s : Statement} (h : t.Denotes c s) :
    s.depth = t.depth := by
  induction h with
  | goto => simp only [Statement.depth, Tree.depth]
  | branch hc _ _ hy hn =>
    simp only [Statement.depth, Tree.depth, Statement.toAlternative_depth, hc.depth_eq, hy, hn]

theorem Deed.Denotes.depth_le {c : Context σ} {x : Deed} {a : Action} (h : x.Denotes c a)
    {n : Nat} (hn : x.depth ≤ n) : a.depth ≤ n := by
  cases h with
  | activate _ hb => exact hb.depth_le hn
  | behave _ hb => exact hb.depth_le hn
  | assign _ hv =>
    rw [Action.depth, hv.depth_eq]
    exact hn

/-- A graph is nested no deeper than the sentence that denotes it. -/
theorem Sentence.Denotes.nestedAtMost {environment : Environment σ} {s : Sentence} {g : Graph}
    (h : s.Denotes environment g) {n : Nat} (hn : s.NestedAtMost n) : g.NestedAtMost n := by
  intro node hnode state hstate
  obtain ⟨b, hb, hbody⟩ := exists_of_forall₂ h.bodies hnode
  obtain ⟨t, ht, hdenotes⟩ := exists_of_forall₂ hbody.states hstate
  obtain ⟨hdeeds, hdecision⟩ := hn b hb t ht
  refine ⟨fun a ha => ?_, ?_⟩
  · obtain ⟨x, hx, hxa⟩ := exists_of_forall₂ hdenotes.deeds ha
    exact hxa.depth_le (hdeeds x hx)
  · rw [hdenotes.decision.depth_eq]
    exact hdecision

/-- The names of parameters are words of the header. -/
theorem Heading.Denotes.names_mem {symbols : Symbols σ} {x : Heading}
    {parameters : Parameters Unit} (h : x.Denotes symbols parameters) {d : Domain} {name : String}
    (hname : name ∈ (parameters.get d).names) : name ∈ x.words := by
  obtain ⟨p, hp, rfl⟩ := List.mem_map.1 hname
  obtain ⟨y, hy, hyp⟩ := exists_of_forall₂ (h.parameters d) hp
  have hword : y.name ∈ y.words := by cases y <;> simp [Declaration.name, Declaration.words]
  have hmem : y.name ∈ x.parameters.flatMap Declaration.words :=
    List.mem_flatMap.2 ⟨y, (List.mem_filter.1 hy).1, hword⟩
  rw [← hyp.name_eq, Heading.words]
  exact List.mem_cons_of_mem _ (List.mem_cons_of_mem _ hmem)

/-- **The names in a graph are words of the sentence** that denotes it. -/
theorem Sentence.Denotes.names_mem {environment : Environment σ} {s : Sentence} {g : Graph}
    (h : s.Denotes environment g) {name : String} (hname : name ∈ g.names) : name ∈ s.words := by
  have hheadings : ∀ x ∈ s.headings, ∀ t ∈ x.words, t ∈ s.words := by
    intro x hx t ht
    have hmem : t ∈ s.headings.flatMap Heading.words := List.mem_flatMap.2 ⟨x, hx, ht⟩
    exact List.mem_cons_of_mem _ (List.mem_append_left _ hmem)
  have hbodies : ∀ x ∈ s.bodies, ∀ t ∈ x.words, t ∈ s.words := by
    intro x hx t ht
    have hmem : t ∈ s.bodies.flatMap Body.words := List.mem_flatMap.2 ⟨x, hx, ht⟩
    exact List.mem_cons_of_mem _ (List.mem_append_right _ (List.mem_append_left _ hmem))
  have hagents : ∀ x ∈ s.agents, ∀ t ∈ x.words, t ∈ s.words := by
    intro x hx t ht
    have hmem : t ∈ s.agents.flatMap Agent.words := List.mem_flatMap.2 ⟨x, hx, ht⟩
    exact List.mem_cons_of_mem _ (List.mem_append_right _
      (List.mem_append_right _ (List.mem_cons_of_mem _ hmem)))
  unfold Graph.names at hname
  rw [List.mem_append, List.mem_append, List.mem_flatMap] at hname
  rcases hname with (hname | ⟨node, hnode, hname⟩) | hname
  · rw [h.names] at hname
    obtain ⟨x, hx, rfl⟩ := List.mem_map.1 hname
    exact hheadings x hx _ (List.mem_cons_self ..)
  · rcases List.mem_append.1 hname with hname | hname
    · obtain ⟨d, -, hname⟩ := List.mem_flatMap.1 hname
      have hformal : node.parameters ∈ (formals g).values := by
        rw [formals, Registry.values_map]
        exact List.mem_map_of_mem hnode
      obtain ⟨x, hx, hdenotes⟩ := exists_of_forall₂ h.headings hformal
      exact hheadings x hx _ (hdenotes.names_mem hname)
    · obtain ⟨b, hb, hbody⟩ := exists_of_forall₂ h.bodies hnode
      rw [hbody.names] at hname
      refine hbodies b hb _ ?_
      unfold Body.words
      exact List.mem_cons_of_mem _ (List.mem_cons_of_mem _ (List.mem_append_left _ hname))
  · obtain ⟨⟨_, root⟩, he, rfl⟩ := List.mem_map.1 hname
    obtain ⟨x, hx, heq, -⟩ := exists_of_forall₂ h.agents he
    refine hagents x hx _ ?_
    rw [heq, Agent.words]
    exact List.mem_cons_self ..

end Grammar

end BehaviorEngine
