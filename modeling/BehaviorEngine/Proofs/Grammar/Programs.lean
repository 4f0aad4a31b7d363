import BehaviorEngine.Proofs.Grammar.Meaning

/-!
What a sentence of the grammar stands for: states, options, agents and whole graphs. The names of
the options are those of the finished graph, so an option may be activated before its body.
-/

namespace BehaviorEngine

namespace Grammar

variable {σ : Type}

/-! ### States -/

/-- What a decision tree denotes. The conditions of an alternative that is a branch itself continue
those of the tree around it. -/
inductive Tree.Denotes (c : Context σ) : Tree → Statement → Prop
  | goto {name : String} {i : Nat} (h : c.states[i]? = some name) :
      Tree.Denotes c (.goto name) (.goto i)
  | branch {condition : Term .boolean} {condition' : Expr .boolean} {yes no : Tree}
      {yes' no' : Statement} (hc : Term.Denotes c none condition condition')
      (hy : Tree.Denotes c yes yes') (hn : Tree.Denotes c no no') :
      Tree.Denotes c (.branch condition yes no) (.branch condition' yes' no'.toAlternative)

/-- What an action denotes. -/
inductive Deed.Denotes (c : Context σ) : Deed → Action → Prop
  | activate {name count : String} {arguments : List Assignment} {i : Nat} {p : Parameters Unit}
      {bindings : List Binding} (ho : c.options.entries[i]? = some (name, p))
      (hb : Call c p count arguments bindings) :
      Deed.Denotes c (.activate name count arguments) (.activate i (Binding.arrange bindings))
  | behave {name count : String} {arguments : List Assignment} {i : Nat} {b : BasicBehavior σ}
      {bindings : List Binding} (ho : c.behaviors.entries[i]? = some (name, b))
      (hb : Call c b.parameters count arguments bindings) :
      Deed.Denotes c (.behave name count arguments) (.behave i (Binding.arrange bindings))
  | assign {d : Domain} {name : String} {value : Term d} {i : Nat} {s : OutputSymbol σ d}
      {e : Expr d} (hs : (c.symbols.outputs.get d).entries[i]? = some (name, s))
      (hv : value.Denotes c (some s.typing) e) :
      Deed.Denotes c (.assign d name value) (.assign i e)

/-- What a state denotes. -/
structure State.Denotes (c : Context σ) (s : State) (state : Graph.State) : Prop where
  flag : s.flag = if state.isTarget then "1" else "0"
  count : readCount? s.count = some s.deeds.length
  deeds : List.Forall₂ (Deed.Denotes c) s.deeds state.actions
  decision : s.decision.Denotes c state.decision

/-! ### Options and agents -/

/-- The parameter of a domain that a declaration denotes, with its name. -/
inductive Declaration.Denotes (symbols : Symbols σ) :
    Declaration → (d : Domain) → String × Parameter Unit d → Prop
  | decimal {name : String} : Declaration.Denotes symbols (.decimal name) .decimal (name, ⟨(), ()⟩)
  | boolean {name : String} : Declaration.Denotes symbols (.boolean name) .boolean (name, ⟨(), ()⟩)
  | enumerated {enumeration name : String} {id : EnumId} {e : Enumeration}
      (h : symbols.enumerations.entries[id]? = some (enumeration, e)) :
      Declaration.Denotes symbols (.enumerated enumeration name) .enumerated (name, ⟨id, ()⟩)

/-- What a header denotes: for each domain, the parameters declared for it in their order, no name
twice. -/
structure Heading.Denotes (symbols : Symbols σ) (h : Heading) (parameters : Parameters Unit) :
    Prop where
  count : readCount? h.count = some h.parameters.length
  distinct : ∀ d, ((h.parameters.filter (·.domain = d)).map Declaration.name).Nodup
  parameters : ∀ d, List.Forall₂ (fun x p => Declaration.Denotes symbols x d p)
    (h.parameters.filter (·.domain = d)) (parameters.get d).entries

/-- What the body of an option denotes: states in the order of their declaration, no name
twice. -/
structure Body.Denotes (environment : Environment σ) (options : Registry (Parameters Unit))
    (b : Body) (node : Graph.Node) : Prop where
  count : readCount? b.count = some b.names.length
  distinct : b.names.Nodup
  initial : b.names[node.initial]? = some b.initial
  order : b.states.map (·.name) = b.names
  names : node.states.names = b.names
  states : List.Forall₂
    (State.Denotes ⟨environment.symbols, environment.behaviors, options, node.parameters, b.names⟩)
    b.states node.states.values

/-- What an agent denotes, with its name. -/
def Agent.Denotes (options : List String) (a : Agent) (root : String × Nat) : Prop :=
  root.1 = a.name ∧ options[root.2]? = some a.root

/-- The formal parameters of the options of a graph. -/
def formals (g : Graph) : Registry (Parameters Unit) := g.options.map (·.parameters)

/-- **The graph that a sentence denotes.** There is an option, names are distinct, and bodies come
in the order of the headers. -/
structure Sentence.Denotes (environment : Environment σ) (s : Sentence) (g : Graph) : Prop where
  count : readCount? s.count = some s.headings.length
  nonempty : s.headings ≠ []
  distinct : (s.headings.map (·.name)).Nodup
  headings : List.Forall₂ (Heading.Denotes environment.symbols) s.headings (formals g).values
  names : g.options.names = s.headings.map (·.name)
  order : s.bodies.map (·.name) = s.headings.map (·.name)
  bodies : List.Forall₂ (Body.Denotes environment (formals g)) s.bodies g.options.values
  agentCount : readCount? s.agentCount = some s.agents.length
  agentsDistinct : (s.agents.map (·.name)).Nodup
  agents : List.Forall₂ (Agent.Denotes g.options.names) s.agents g.agents.entries

end Grammar

end BehaviorEngine
