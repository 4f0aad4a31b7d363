import BehaviorEngine.Proofs.Graph.Evaluation

/-!
Complete call sites. An action that activates an option or runs a basic behavior binds each
parameter of its target once, as the call sites of input symbols do. Construction only builds graphs
that are complete in this sense, so the arguments of a call site determine all parameters of its
target.
-/

namespace BehaviorEngine

open Grammar (BindsEachOnce)

variable {σ : Type}

/-! ### Graphs -/

/-- An action binds each parameter of its target once. -/
def Action.Complete (p : Program σ) : Action → Prop
  | .activate i bindings => ∃ node, p.graph.options.at? i = some node ∧
    BindsEachOnce node.parameters bindings
  | .behave i bindings => ∃ behavior, p.environment.behaviors.at? i = some behavior ∧
    BindsEachOnce behavior.parameters bindings
  | .assign _ _ => True

/-- **A program is complete**: all its actions bind each parameter of their targets once. -/
def Program.Complete (p : Program σ) : Prop :=
  ∀ n ∈ p.graph.options.values, ∀ s ∈ n.states.values, ∀ a ∈ s.actions, a.Complete p

section Construction

open Grammar

variable {environment : Environment σ} {g : Graph}

theorem Grammar.Deed.Denotes.complete {own : Parameters Unit} {states : List String} {x : Deed}
    {a : Action}
    (h : x.Denotes ⟨environment.symbols, environment.behaviors, formals g, own, states⟩ a) :
    a.Complete ⟨environment, g⟩ := by
  cases h with
  | activate ho hb =>
    obtain ⟨node, hnode, rfl⟩ := formals_getElem? ho
    exact ⟨node, hnode, hb.once.arrange⟩
  | @behave _ _ _ _ b _ ho hb => exact ⟨b, by rw [Registry.at?_eq, ho]; rfl, hb.once.arrange⟩
  | assign => trivial

/-- The graph that a sentence denotes is complete. -/
theorem Grammar.Sentence.Denotes.complete {s : Sentence} (h : s.Denotes environment g) :
    Program.Complete ⟨environment, g⟩ := by
  intro n hn state hstate a ha
  obtain ⟨b, -, hb⟩ := exists_of_forall₂ h.bodies hn
  obtain ⟨t, -, ht⟩ := exists_of_forall₂ hb.states hstate
  obtain ⟨x, -, hx⟩ := exists_of_forall₂ ht.deeds ha
  exact hx.complete

/-- **Construction only builds complete graphs.** -/
theorem Graph.complete_of_ofSource {limits : Limits} {source : String}
    (h : Graph.ofSource limits environment source = .ok g) :
    Program.Complete ⟨environment, g⟩ := by
  obtain ⟨s, hs⟩ := Graph.denotes_of_ofSource h
  exact hs.complete

end Construction

/-! ### Arguments -/

/-- **Arguments determine parameters**: there is one argument for each parameter, and none
besides. -/
structure Parameters.BoundBy {slot : Type} (p : Parameters slot) (arguments : List Argument) :
    Prop where
  nodup : (arguments.map Argument.key).Nodup
  mem_iff : ∀ d i, (d, i) ∈ arguments.map Argument.key ↔ i < p.sizes d

/-- The arguments of a call site that binds each parameter once determine the parameters. -/
theorem Grammar.BindsEachOnce.boundBy {slot : Type} {p : Parameters slot} {bindings : List Binding}
    (h : BindsEachOnce p bindings) {y : Symbols σ} {own : Domain → Nat}
    (hr : ∀ b ∈ bindings, b.Fits y own p.sizes) {arguments : List Argument}
    (hk : arguments.map Argument.key = bindings.map Binding.key) : p.BoundBy arguments := by
  refine ⟨hk ▸ h.nodup, fun d i => ?_⟩
  rw [hk]
  refine ⟨fun hmem => ?_, h.complete d i⟩
  obtain ⟨b, hb, hkey⟩ := List.mem_map.1 hmem
  cases b with
  | mk kind j e =>
    obtain ⟨rfl, rfl⟩ : kind = d ∧ j = i := Prod.mk.inj hkey
    exact (hr _ hb).1

/-- There is an argument for each parameter. -/
theorem Parameters.BoundBy.exists_mem {slot : Type} {p : Parameters slot}
    {arguments : List Argument} (h : p.BoundBy arguments) {d : Domain} {i : Nat}
    (hi : i < p.sizes d) :
    ∃ x, ⟨d, i, x⟩ ∈ arguments := by
  obtain ⟨⟨_, _, x⟩, ha, hkey⟩ := List.mem_map.1 ((h.mem_iff d i).2 hi)
  obtain ⟨rfl, rfl⟩ := Prod.mk.inj hkey
  exact ⟨x, ha⟩

end BehaviorEngine
