import BehaviorEngine.Proofs.Expr.Operands
import BehaviorEngine.Proofs.Host.Enumerations

/-!
Graphs that are typed: all references carry the typing of what they refer to. An expression has the
enumeration of the symbol or parameter that it names, the branches of a choice have that of the
whole, both sides of a comparison have the same one, and what is assigned or bound has that of the
output symbol or parameter. Construction only builds graphs that are typed.
-/

namespace BehaviorEngine

variable {σ : Type}

/-- A value agrees with a typing: an enumerated one is the value of an element of the
enumeration. -/
def Symbols.Admits (y : Symbols σ) : {d : Domain} → d.Typing → d.Value → Prop
  | .enumerated, id, x => ∃ element, y.elementValue? id element = some x
  | .decimal, _, _ => True
  | .boolean, _, _ => True

/-- The typing of the parameter of a domain at a position. -/
def Parameters.typing? {slot : Type} (p : Parameters slot) (d : Domain) (i : Nat) :
    Option d.Typing :=
  ((p.get d).at? i).map Parameter.typing

theorem Parameters.typing?_eq_some {slot : Type} {p : Parameters slot} {d : Domain} {i : Nat}
    {name : String} {x : Parameter slot d} (h : (p.get d).entries[i]? = some (name, x)) :
    p.typing? d i = some x.typing := by
  rw [Parameters.typing?, Registry.at?_eq, h]
  rfl

/-! ### Expressions -/

mutual

/-- All references in an expression carry the typing of what they refer to, where `own` tells the
typings of the parameters of the option in whose body it stands. -/
def Expr.Typed (y : Symbols σ) (own : (d : Domain) → Nat → Option d.Typing) :
    {d : Domain} → Expr d → Prop
  | _, .literal t x => y.Admits t x
  | d, .parameter t i => own d i = some t
  | d, .input t i bindings => ∃ symbol, (y.inputs.get d).at? i = some symbol ∧
    symbol.typing = t ∧ Binding.AllTyped y own symbol.parameters.typing? bindings
  | d, .output t i => ∃ symbol, (y.outputs.get d).at? i = some symbol ∧ symbol.typing = t
  | _, .choice condition yes no =>
    condition.Typed y own ∧ yes.Typed y own ∧ no.Typed y own ∧ no.typing = yes.typing
  | _, .arithmetic _ left right => left.Typed y own ∧ right.Typed y own
  | _, .stateTime => True
  | _, .optionTime => True
  | _, .connective _ operands => Expr.AllTyped y own operands
  | _, .not operand => operand.Typed y own
  | _, .relation _ left right => left.Typed y own ∧ right.Typed y own
  | _, .sameElement left right =>
    left.Typed y own ∧ right.Typed y own ∧ right.typing = left.typing
  | _, .reachedTarget => True
termination_by structural _ e => e

/-- All references in operands carry the typing of what they refer to. -/
def Expr.AllTyped (y : Symbols σ) (own : (d : Domain) → Nat → Option d.Typing) :
    List (Expr .boolean) → Prop
  | [] => True
  | e :: es => e.Typed y own ∧ Expr.AllTyped y own es
termination_by structural es => es

/-- The expressions of bindings have the typings of the parameters of the target, which `formal`
tells, and all references in them carry the typing of what they refer to. -/
def Binding.AllTyped (y : Symbols σ) (own formal : (d : Domain) → Nat → Option d.Typing) :
    List Binding → Prop
  | [] => True
  | .mk d i e :: bs => (formal d i = some e.typing ∧ e.Typed y own) ∧
    Binding.AllTyped y own formal bs
termination_by structural bs => bs

end

/-- The expression of a binding has the typing of the parameter of the target, and all references
in it carry the typing of what they refer to. -/
def Binding.Typed (y : Symbols σ) (own formal : (d : Domain) → Nat → Option d.Typing) :
    Binding → Prop
  | .mk d i e => formal d i = some e.typing ∧ e.Typed y own

theorem Binding.allTyped_iff {y : Symbols σ} {own formal : (d : Domain) → Nat → Option d.Typing}
    {bs : List Binding} : Binding.AllTyped y own formal bs ↔ ∀ b ∈ bs, b.Typed y own formal := by
  induction bs with
  | nil => simp [Binding.AllTyped]
  | cons b bs ih =>
    rw [List.forall_mem_cons, ← ih]
    cases b
    rfl

theorem Binding.Typed.expr {y : Symbols σ} {own formal : (d : Domain) → Nat → Option d.Typing}
    {b : Binding} (h : b.Typed y own formal) : b.expr.2.Typed y own := by
  cases b with
  | mk => exact h.2

theorem Expr.allTyped_iff {y : Symbols σ} {own : (d : Domain) → Nat → Option d.Typing}
    {es : List (Expr .boolean)} : Expr.AllTyped y own es ↔ ∀ e ∈ es, e.Typed y own := by
  induction es with
  | nil => simp [Expr.AllTyped]
  | cons e es ih => rw [List.forall_mem_cons, ← ih, Expr.AllTyped]

/-- Operands of typed expressions are typed. -/
theorem Expr.Typed.operands {y : Symbols σ} {own : (d : Domain) → Nat → Option d.Typing}
    {d : Domain} {e : Expr d} (h : e.Typed y own) {x : Σ d, Expr d} (hx : x ∈ e.operands) :
    x.2.Typed y own := by
  cases e with
  | input =>
    obtain ⟨_, -, -, hb⟩ := h
    obtain ⟨b, hb', rfl⟩ := List.mem_map.1 hx
    exact (Binding.allTyped_iff.1 hb b hb').expr
  | choice =>
    obtain ⟨hc, hy, hn, -⟩ := h
    simp only [Expr.operands, List.mem_cons, List.not_mem_nil, or_false] at hx
    rcases hx with rfl | rfl | rfl
    exacts [hc, hy, hn]
  | arithmetic | relation =>
    rcases List.mem_pair.1 hx with rfl | rfl
    exacts [h.1, h.2]
  | sameElement =>
    rcases List.mem_pair.1 hx with rfl | rfl
    exacts [h.1, h.2.1]
  | connective =>
    obtain ⟨e, he, rfl⟩ := List.mem_map.1 hx
    exact Expr.allTyped_iff.1 h e he
  | not =>
    obtain rfl := List.mem_singleton.1 hx
    exact h
  | _ => cases hx

/-! ### Graphs -/

mutual

/-- All references in a decision tree carry the typing of what they refer to. -/
def Statement.Typed (y : Symbols σ) (own : (d : Domain) → Nat → Option d.Typing) :
    Statement → Prop
  | .goto _ => True
  | .branch condition yes otherwise =>
    condition.Typed y own ∧ yes.Typed y own ∧ otherwise.Typed y own

/-- All references in an alternative carry the typing of what they refer to. -/
def Alternative.Typed (y : Symbols σ) (own : (d : Domain) → Nat → Option d.Typing) :
    Alternative → Prop
  | .elseIf condition yes otherwise =>
    condition.Typed y own ∧ yes.Typed y own ∧ otherwise.Typed y own
  | .last statement => statement.Typed y own

end

mutual

theorem Statement.Typed.exprs {y : Symbols σ} {own : (d : Domain) → Nat → Option d.Typing}
    {t : Statement} (h : t.Typed y own) {x : Σ d, Expr d} (hx : x ∈ t.exprs) : x.2.Typed y own := by
  cases t with
  | goto => cases hx
  | branch condition yes otherwise =>
    rcases List.mem_cons.1 hx with rfl | hx
    · exact h.1
    · rcases List.mem_append.1 hx with hx | hx
      · exact Statement.Typed.exprs h.2.1 hx
      · exact Alternative.Typed.exprs h.2.2 hx

theorem Alternative.Typed.exprs {y : Symbols σ} {own : (d : Domain) → Nat → Option d.Typing}
    {t : Alternative} (h : t.Typed y own) {x : Σ d, Expr d} (hx : x ∈ t.exprs) :
    x.2.Typed y own := by
  cases t with
  | elseIf condition yes otherwise =>
    rcases List.mem_cons.1 hx with rfl | hx
    · exact h.1
    · rcases List.mem_append.1 hx with hx | hx
      · exact Statement.Typed.exprs h.2.1 hx
      · exact Alternative.Typed.exprs h.2.2 hx
  | last statement => exact Statement.Typed.exprs (t := statement) h hx

end

/-- What an action assigns or binds has the typing of the output symbol or the parameter. -/
def Action.Typed (p : Program σ) (own : (d : Domain) → Nat → Option d.Typing) : Action → Prop
  | .activate i bindings => ∃ node, p.graph.options.at? i = some node ∧
    ∀ b ∈ bindings, b.Typed p.environment.symbols own node.parameters.typing?
  | .behave i bindings => ∃ behavior, p.environment.behaviors.at? i = some behavior ∧
    ∀ b ∈ bindings, b.Typed p.environment.symbols own behavior.parameters.typing?
  | .assign (d := d) i value => ∃ symbol,
    (p.environment.symbols.outputs.get d).at? i = some symbol ∧
    symbol.typing = value.typing ∧ value.Typed p.environment.symbols own

/-- The actions and the decision tree of a state are typed. -/
structure Graph.State.Typed (p : Program σ) (own : (d : Domain) → Nat → Option d.Typing)
    (s : Graph.State) : Prop where
  actions : ∀ a ∈ s.actions, a.Typed p own
  decision : s.decision.Typed p.environment.symbols own

/-- **A program is typed**: every state of every option is. -/
def Program.Typed (p : Program σ) : Prop :=
  ∀ n ∈ p.graph.options.values, ∀ s ∈ n.states.values, s.Typed p n.parameters.typing?

/-! ### What sentences denote -/

open Grammar

/-- **An expression that is denoted is typed.** -/
theorem Grammar.Term.Denotes.typed {c : Context σ} {d : Domain} {expected : Option d.Typing}
    {t : Term d} {e : Expr d} (h : t.Denotes c expected e) :
    e.Typed c.symbols c.parameters.typing? := by
  refine @Term.Denotes.rec σ c (fun _ _ e _ => e.Typed c.symbols c.parameters.typing?)
    (fun _ es _ => Expr.AllTyped c.symbols c.parameters.typing? es)
    (fun target _ bs _ =>
      Binding.AllTyped c.symbols c.parameters.typing? target.typing? bs)
    ?decimal ?constant ?yes ?no ?element ?parameter ?input ?output ?choice ?arithmetic ?stateTime
    ?optionTime ?connective ?not ?relation ?sameElement ?reachedTarget ?noOperand ?operand
    ?noBinding ?binding d expected t e h
  case decimal | constant | yes | no | stateTime | optionTime | reachedTarget =>
    intros; trivial
  case element =>
    intro id value x hx
    exact ⟨value, hx⟩
  case parameter =>
    intro _ _ _ _ _ hp _
    exact Parameters.typing?_eq_some hp
  case input =>
    intro _ _ _ _ _ s _ _ hs _ _ _ _ htyped
    refine ⟨s, by rw [Registry.at?_eq, hs]; rfl, rfl, ?_⟩
    rw [Binding.allTyped_iff] at htyped ⊢
    intro b hb
    exact htyped b (Binding.mem_arrange.1 hb)
  case output =>
    intro _ _ _ _ s hs _
    exact ⟨s, by rw [Registry.at?_eq, hs]; rfl, rfl⟩
  case choice =>
    intro _ _ _ _ _ _ _ _ _ _ hno hc hy hn
    exact ⟨hc, hy, hn, (hno.agrees _ rfl).symm⟩
  case arithmetic | relation =>
    intro _ _ _ _ _ _ _ _ hl hr
    exact ⟨hl, hr⟩
  case sameElement =>
    intro _ _ _ _ _ _ hright hl hr
    exact ⟨hl, hr, (hright.agrees _ rfl).symm⟩
  case connective =>
    intro _ _ _ _ _ _ _ _ ho
    exact ho
  case not =>
    intro _ _ _ _ ho
    exact ho
  case noOperand => trivial
  case operand =>
    intro _ _ _ _ _ _ h hs
    exact ⟨h, hs⟩
  case noBinding => intros; trivial
  case binding =>
    intro _ _ _ _ _ _ _ _ _ _ hp hvalue _ hv hs
    refine ⟨⟨?_, hv⟩, hs⟩
    rw [Parameters.typing?_eq_some hp, hvalue.agrees _ rfl]

theorem Grammar.Assignment.Denotes.typed {c : Context σ} {slot : Type} {target : Parameters slot}
    {a : Assignment} {b : Binding} (h : a.Denotes c target b) :
    b.Typed c.symbols c.parameters.typing? target.typing? := by
  cases h with
  | mk hp hv =>
    refine ⟨?_, hv.typed⟩
    rw [Parameters.typing?_eq_some hp, hv.agrees _ rfl]

/-- The bindings of a call site that is denoted have the typings of the parameters of its target. -/
theorem Grammar.Call.typed {c : Context σ} {slot : Type} {target : Parameters slot} {count : String}
    {as : List Assignment} {bs : List Binding} (h : Call c target count as bs) :
    ∀ b ∈ Binding.arrange bs, b.Typed c.symbols c.parameters.typing? target.typing? := by
  intro b hb
  obtain ⟨a, -, hab⟩ := exists_of_forall₂ (Assignment.allDenote_iff.1 h.arguments)
    (Binding.mem_arrange.1 hb)
  exact hab.typed

theorem Statement.toAlternative_typed {y : Symbols σ}
    {own : (d : Domain) → Nat → Option d.Typing} {t : Statement} (h : t.Typed y own) :
    t.toAlternative.Typed y own := by
  cases t with
  | goto => exact h
  | branch => exact h

theorem Grammar.Tree.Denotes.typed {c : Context σ} {t : Tree} {s : Statement}
    (h : t.Denotes c s) : s.Typed c.symbols c.parameters.typing? := by
  induction h with
  | goto => trivial
  | branch hc _ _ hy hn => exact ⟨hc.typed, hy, Statement.toAlternative_typed hn⟩

section Graphs

variable {environment : Environment σ} {g : Graph}

theorem Grammar.Deed.Denotes.typed {own : Parameters Unit} {states : List String} {x : Deed}
    {a : Action}
    (h : x.Denotes ⟨environment.symbols, environment.behaviors, formals g, own, states⟩ a) :
    a.Typed ⟨environment, g⟩ own.typing? := by
  cases h with
  | activate ho hb =>
    obtain ⟨node, hnode, rfl⟩ := formals_getElem? ho
    exact ⟨node, hnode, hb.typed⟩
  | @behave _ _ _ _ b _ ho hb => exact ⟨b, by rw [Registry.at?_eq, ho]; rfl, hb.typed⟩
  | @assign _ _ _ _ s _ hs hv =>
    exact ⟨s, by rw [Registry.at?_eq, hs]; rfl, hv.agrees _ rfl, hv.typed⟩

/-- The graph that a sentence denotes is typed. -/
theorem Grammar.Sentence.Denotes.typed {s : Sentence} (h : s.Denotes environment g) :
    Program.Typed ⟨environment, g⟩ := by
  intro n hn state hstate
  obtain ⟨b, -, hb⟩ := exists_of_forall₂ h.bodies hn
  obtain ⟨t, -, ht⟩ := exists_of_forall₂ hb.states hstate
  refine ⟨fun a ha => ?_, ht.decision.typed⟩
  obtain ⟨x, -, hx⟩ := exists_of_forall₂ ht.deeds ha
  exact hx.typed

end Graphs

/-- **Construction only builds graphs that are typed.** -/
theorem Graph.typed_of_ofSource {limits : Limits} {environment : Environment σ} {source : String}
    {g : Graph} (h : Graph.ofSource limits environment source = .ok g) :
    Program.Typed ⟨environment, g⟩ := by
  obtain ⟨s, hs⟩ := Graph.denotes_of_ofSource h
  exact hs.typed

end BehaviorEngine
