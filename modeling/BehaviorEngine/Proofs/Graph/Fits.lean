import BehaviorEngine.Engine.Cycle
import BehaviorEngine.Proofs.Grammar.Graphs

/-!
Graphs that fit their environment: every position that stands in them leads somewhere. Options,
basic behaviors, symbols, parameters, enumerations and states are given by positions once a graph
is built, and whatever a cycle or a snapshot looks up it looks up by such a position. Construction
only builds graphs that fit.
-/

namespace BehaviorEngine

variable {σ : Type}

/-- Number of parameters of each domain. -/
def Parameters.sizes {slot : Type} (p : Parameters slot) (d : Domain) : Nat := (p.get d).size

theorem Parameters.sizes_eq_zero {slot : Type} {p : Parameters slot} (h : p.size = 0)
    (d : Domain) : p.sizes d = 0 := by
  unfold Parameters.size at h
  cases d <;> simp only [Parameters.sizes, PerDomain.get] <;> omega

/-! ### Expressions -/

open Grammar (BindsEachOnce)

mutual

/-- The positions in an expression lead somewhere, where `own` parameters of each domain belong to
the option in whose body it stands, and its call sites bind each parameter once. -/
def Expr.Fits (s : Symbols σ) (own : Domain → Nat) : {d : Domain} → Expr d → Prop
  | _, .literal _ _ => True
  | d, .parameter _ i => i < own d
  | d, .input _ i bindings => ∃ symbol, (s.inputs.get d).at? i = some symbol ∧
    BindsEachOnce symbol.parameters bindings ∧
    Binding.AllFit s own symbol.parameters.sizes bindings
  | d, .output _ i => i < (s.outputs.get d).size
  | _, .choice condition yes no => condition.Fits s own ∧ yes.Fits s own ∧ no.Fits s own
  | _, .arithmetic _ left right => left.Fits s own ∧ right.Fits s own
  | _, .stateTime => True
  | _, .optionTime => True
  | _, .connective _ operands => Expr.AllFit s own operands
  | _, .not operand => operand.Fits s own
  | _, .relation _ left right => left.Fits s own ∧ right.Fits s own
  | _, .sameElement left right => left.Fits s own ∧ right.Fits s own
  | _, .reachedTarget => True
termination_by structural _ e => e

/-- The positions in operands lead somewhere. -/
def Expr.AllFit (s : Symbols σ) (own : Domain → Nat) : List (Expr .boolean) → Prop
  | [] => True
  | e :: es => e.Fits s own ∧ Expr.AllFit s own es
termination_by structural es => es

/-- The bindings of a call site are for parameters of the target, which has `room` of each domain,
and the positions in their expressions lead somewhere. -/
def Binding.AllFit (s : Symbols σ) (own : Domain → Nat) (room : Domain → Nat) :
    List Binding → Prop
  | [] => True
  | .mk d i e :: bs => (i < room d ∧ e.Fits s own) ∧ Binding.AllFit s own room bs
termination_by structural bs => bs

end

/-- A binding is for a parameter of the target, and the positions in its expression lead
somewhere. -/
def Binding.Fits (s : Symbols σ) (own room : Domain → Nat) : Binding → Prop
  | .mk d i e => i < room d ∧ e.Fits s own

theorem Binding.allFit_iff {s : Symbols σ} {own room : Domain → Nat} {bs : List Binding} :
    Binding.AllFit s own room bs ↔ ∀ b ∈ bs, b.Fits s own room := by
  induction bs with
  | nil => simp [Binding.AllFit]
  | cons b bs ih =>
    rw [List.forall_mem_cons, ← ih]
    cases b
    rfl

theorem Binding.arrange_cons_perm (b : Binding) (bs : List Binding) :
    (Binding.arrange (b :: bs)).Perm (b :: Binding.arrange bs) := by
  have hd : b.domain = .decimal ∨ b.domain = .boolean ∨ b.domain = .enumerated := by
    cases b.domain <;> simp
  simp only [Binding.arrange, Domain.all, List.flatMap_cons, List.flatMap_nil, List.append_nil,
    List.filter_cons]
  rcases hd with hd | hd | hd
  · simp [hd]
  · simp only [hd, reduceCtorEq, decide_false, decide_true, if_true, Bool.false_eq_true, if_false]
    exact List.perm_middle
  · simp only [hd, reduceCtorEq, decide_false, decide_true, if_true, Bool.false_eq_true, if_false]
    rw [← List.append_assoc, ← List.append_assoc]
    exact List.perm_middle

/-- Arranging bindings neither adds nor drops one. -/
theorem Binding.arrange_perm (bs : List Binding) : (Binding.arrange bs).Perm bs := by
  induction bs with
  | nil => exact .nil
  | cons b bs ih => exact (Binding.arrange_cons_perm b bs).trans (ih.cons b)

theorem Binding.mem_arrange {b : Binding} {bs : List Binding} :
    b ∈ Binding.arrange bs ↔ b ∈ bs := (Binding.arrange_perm bs).mem_iff

theorem Grammar.BindsEachOnce.arrange {slot : Type} {target : Parameters slot} {bs : List Binding}
    (h : BindsEachOnce target bs) : BindsEachOnce target (Binding.arrange bs) := by
  have hkeys := (Binding.arrange_perm bs).map Binding.key
  exact ⟨hkeys.nodup_iff.2 h.nodup, fun d i hi => hkeys.mem_iff.2 (h.complete d i hi)⟩

/-! ### Graphs -/

mutual

/-- The positions in a decision tree lead somewhere, in an option with `states` states. -/
def Statement.Fits (s : Symbols σ) (own : Domain → Nat) (states : Nat) : Statement → Prop
  | .goto i => i < states
  | .branch condition yes otherwise =>
    condition.Fits s own ∧ yes.Fits s own states ∧ otherwise.Fits s own states

/-- The positions in an alternative lead somewhere, in an option with `states` states. -/
def Alternative.Fits (s : Symbols σ) (own : Domain → Nat) (states : Nat) : Alternative → Prop
  | .elseIf condition yes otherwise =>
    condition.Fits s own ∧ yes.Fits s own states ∧ otherwise.Fits s own states
  | .last statement => statement.Fits s own states

end

/-- The positions in an action lead somewhere, in the body of an option with the parameters
`own`. -/
def Action.Fits (p : Program σ) (own : Domain → Nat) : Action → Prop
  | .activate i bindings => ∃ node, p.graph.options.at? i = some node ∧
    ∀ b ∈ bindings, b.Fits p.environment.symbols own node.parameters.sizes
  | .behave i bindings => ∃ behavior, p.environment.behaviors.at? i = some behavior ∧
    ∀ b ∈ bindings, b.Fits p.environment.symbols own behavior.parameters.sizes
  | .assign (d := d) i value =>
    i < (p.environment.symbols.outputs.get d).size ∧ value.Fits p.environment.symbols own ∧
      p.environment.symbols.Knows d value.typing

/-- The positions in a state lead somewhere. -/
structure Graph.State.Fits (p : Program σ) (own : Domain → Nat) (states : Nat) (s : Graph.State) :
    Prop where
  actions : ∀ a ∈ s.actions, a.Fits p own
  decision : s.decision.Fits p.environment.symbols own states

/-- The positions in an option lead somewhere. -/
structure Graph.Node.Fits (p : Program σ) (n : Graph.Node) : Prop where
  parameters : n.parameters.KnownTo p.environment.symbols
  initial : n.initial < n.states.size
  states : ∀ s ∈ n.states.values, s.Fits p n.parameters.sizes n.states.size

/-- **A program fits together**: every position in its graph leads somewhere. -/
structure Program.Fits (p : Program σ) : Prop where
  nonempty : 0 < p.graph.options.size
  options : ∀ n ∈ p.graph.options.values, n.Fits p
  agents : ∀ root ∈ p.graph.agents.values, root < p.graph.options.size

/-! ### What sentences denote -/

open Grammar

/-- An expression that is denoted has the typing that is expected. -/
theorem Grammar.Term.Denotes.agrees {c : Context σ} {d : Domain} {expected : Option d.Typing}
    {t : Term d} {e : Expr d} (h : t.Denotes c expected e) : Agrees expected e.typing := by
  have hunit : ∀ (expected : Option Unit), ∀ t ∈ expected, t = () := fun _ _ _ => rfl
  refine @Term.Denotes.rec σ c (fun expected _ e _ => Agrees expected e.typing)
    (fun _ _ _ => True) (fun _ _ _ _ => True)
    ?decimal ?constant ?yes ?no ?element ?parameter ?input ?output ?choice ?arithmetic ?stateTime
    ?optionTime ?connective ?not ?relation ?sameElement ?reachedTarget ?noOperand ?operand
    ?noBinding ?binding d expected t e h
  case element => exact fun _ _ h => (Option.some_inj.1 h).symm
  case parameter | output =>
    intro _ _ _ _ _ _ ht
    exact ht
  case input =>
    intro _ _ _ _ _ _ _ _ _ ht _ _ _ _
    exact ht
  case choice =>
    intro _ _ _ _ _ _ _ _ _ _ _ _ hy _
    exact hy
  all_goals intros
  all_goals first | trivial | exact hunit _

/-- An expression that is denoted fits. -/
theorem Grammar.Term.Denotes.fits {c : Context σ} {d : Domain} {expected : Option d.Typing}
    {t : Term d} {e : Expr d} (h : t.Denotes c expected e) :
    e.Fits c.symbols c.parameters.sizes := by
  refine @Term.Denotes.rec σ c (fun _ _ e _ => e.Fits c.symbols c.parameters.sizes)
    (fun _ es _ => Expr.AllFit c.symbols c.parameters.sizes es)
    (fun target _ bs _ => Binding.AllFit c.symbols c.parameters.sizes target.sizes bs)
    ?decimal ?constant ?yes ?no ?element ?parameter ?input ?output ?choice ?arithmetic ?stateTime
    ?optionTime ?connective ?not ?relation ?sameElement ?reachedTarget ?noOperand ?operand
    ?noBinding ?binding d expected t e h
  case decimal | constant | yes | no | element | stateTime | optionTime | reachedTarget =>
    intros; trivial
  case noOperand => trivial
  case noBinding => intros; trivial
  case parameter | output =>
    intro _ _ _ _ _ h _
    exact Registry.lt_size h
  case input =>
    intro _ _ _ _ _ s _ _ hs _ _ _ hb hfit
    refine ⟨s, by rw [Registry.at?_eq, hs]; rfl, hb.arrange, ?_⟩
    rw [Binding.allFit_iff] at hfit ⊢
    intro b hb
    exact hfit b (Binding.mem_arrange.1 hb)
  case choice =>
    intro _ _ _ _ _ _ _ _ _ _ _ hc hy hn
    exact ⟨hc, hy, hn⟩
  case arithmetic | relation =>
    intro _ _ _ _ _ _ _ _ hl hr
    exact ⟨hl, hr⟩
  case sameElement =>
    intro _ _ _ _ _ _ _ hl hr
    exact ⟨hl, hr⟩
  case connective =>
    intro _ _ _ _ _ _ _ _ ho
    exact ho
  case not =>
    intro _ _ _ _ ho
    exact ho
  case operand =>
    intro _ _ _ _ _ _ h hs
    exact ⟨h, hs⟩
  case binding =>
    intro _ _ _ _ _ _ _ _ _ _ hp _ _ hv hs
    exact ⟨⟨Registry.lt_size hp, hv⟩, hs⟩

theorem Grammar.Assignment.Denotes.fits {c : Context σ} {slot : Type} {target : Parameters slot}
    {a : Assignment} {b : Binding} (h : a.Denotes c target b) :
    b.Fits c.symbols c.parameters.sizes target.sizes := by
  cases h with
  | mk hp hv => exact ⟨Registry.lt_size hp, hv.fits⟩

/-- The bindings of a call site that is denoted fit its target. -/
theorem Grammar.Call.fits {c : Context σ} {slot : Type} {target : Parameters slot} {count : String}
    {as : List Assignment} {bs : List Binding} (h : Call c target count as bs) :
    ∀ b ∈ Binding.arrange bs, b.Fits c.symbols c.parameters.sizes target.sizes := by
  intro b hb
  obtain ⟨a, -, hab⟩ := exists_of_forall₂ (Assignment.allDenote_iff.1 h.arguments)
    (Binding.mem_arrange.1 hb)
  exact hab.fits

theorem Statement.toAlternative_fits {s : Symbols σ} {own : Domain → Nat} {states : Nat}
    {t : Statement} (h : t.Fits s own states) : t.toAlternative.Fits s own states := by
  cases t with
  | goto => exact h
  | branch => exact h

theorem Grammar.Tree.Denotes.fits {c : Context σ} {t : Tree} {s : Statement}
    (h : t.Denotes c s) : s.Fits c.symbols c.parameters.sizes c.states.length := by
  induction h with
  | goto h => exact (List.getElem?_eq_some_iff.1 h).1
  | branch hc _ _ hy hn => exact ⟨hc.fits, hy, Statement.toAlternative_fits hn⟩

section Graphs

variable {environment : Environment σ} {g : Graph}

theorem Grammar.formals_getElem? {i : Nat} {name : String} {ps : Parameters Unit}
    (h : (formals g).entries[i]? = some (name, ps)) :
    ∃ node, g.options.at? i = some node ∧ node.parameters = ps := by
  rw [formals, Registry.entries_map, List.getElem?_map, Option.map_eq_some_iff] at h
  obtain ⟨⟨_, node⟩, h, e⟩ := h
  exact ⟨node, by rw [Registry.at?_eq, h]; rfl, congrArg Prod.snd e⟩

theorem Grammar.Deed.Denotes.fits {own : Parameters Unit} {states : List String} {x : Deed}
    {a : Action}
    (h : x.Denotes ⟨environment.symbols, environment.behaviors, formals g, own, states⟩ a) :
    a.Fits ⟨environment, g⟩ own.sizes := by
  cases h with
  | activate ho hb =>
    obtain ⟨node, hnode, rfl⟩ := formals_getElem? ho
    exact ⟨node, hnode, hb.fits⟩
  | @behave _ _ _ _ b _ ho hb => exact ⟨b, by rw [Registry.at?_eq, ho]; rfl, hb.fits⟩
  | @assign _ _ _ _ s _ hs hv =>
    have hmem := List.mem_map_of_mem (f := Prod.snd) (List.mem_of_getElem? hs)
    exact ⟨Registry.lt_size hs, hv.fits,
      hv.agrees _ rfl ▸ environment.sound.outputs _ s hmem⟩

/-- The enumerations of declared parameters are known. -/
theorem Grammar.Heading.Denotes.knownTo {s : Symbols σ} {h : Heading} {ps : Parameters Unit}
    (hps : h.Denotes s ps) : ps.KnownTo s := by
  intro d x hx
  obtain ⟨⟨name, _⟩, hp, rfl⟩ := List.mem_map.1 hx
  obtain ⟨_, -, hdeclared⟩ := exists_of_forall₂ (hps.parameters d) hp
  cases hdeclared with
  | decimal | boolean => trivial
  | enumerated h => exact Registry.lt_size h

theorem Grammar.Body.Denotes.fits {b : Body} {n : Graph.Node}
    (h : b.Denotes environment (formals g) n) (hknown : n.parameters.KnownTo environment.symbols) :
    n.Fits ⟨environment, g⟩ := by
  have hlength : b.names.length = n.states.size := by rw [← h.names, Registry.names_length]
  refine ⟨hknown, ?_, fun s hs => ?_⟩
  · rw [← hlength]
    exact (List.getElem?_eq_some_iff.1 h.initial).1
  · obtain ⟨t, -, ht⟩ := exists_of_forall₂ h.states hs
    refine ⟨fun a ha => ?_, ?_⟩
    · obtain ⟨x, -, hx⟩ := exists_of_forall₂ ht.deeds ha
      exact hx.fits
    · rw [← hlength]
      exact ht.decision.fits

/-- The graph that a sentence denotes fits the environment. -/
theorem Grammar.Sentence.Denotes.fits {s : Sentence} (h : s.Denotes environment g) :
    Program.Fits ⟨environment, g⟩ := by
  have hlength : s.headings.length = g.options.size := by
    rw [← Registry.names_length, h.names, List.length_map]
  refine ⟨?_, fun n hn => ?_, fun root hroot => ?_⟩
  · rw [← hlength]
    exact List.length_pos_of_ne_nil h.nonempty
  · obtain ⟨b, -, hb⟩ := exists_of_forall₂ h.bodies hn
    refine hb.fits ?_
    have hparameters : n.parameters ∈ (formals g).values := by
      rw [formals, Registry.values_map]
      exact List.mem_map_of_mem hn
    obtain ⟨_, -, hheading⟩ := exists_of_forall₂ h.headings hparameters
    exact hheading.knownTo
  · obtain ⟨⟨name, _⟩, he, rfl⟩ := List.mem_map.1 hroot
    obtain ⟨a, -, -, ha⟩ := exists_of_forall₂ h.agents he
    rw [← Registry.names_length]
    exact (List.getElem?_eq_some_iff.1 ha).1

end Graphs

/-- **Construction only builds graphs that fit.** -/
theorem Graph.fits_of_ofSource {limits : Limits} {environment : Environment σ} {source : String}
    {g : Graph} (h : Graph.ofSource limits environment source = .ok g) :
    Program.Fits ⟨environment, g⟩ := by
  obtain ⟨s, hs⟩ := Graph.denotes_of_ofSource h
  exact hs.fits

end BehaviorEngine
