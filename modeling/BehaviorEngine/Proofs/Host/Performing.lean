import BehaviorEngine.Proofs.Host.Registration

/-!
Registrations that succeed. What each kind of registration does to an environment is said once, as a
relation; whatever holds of sequences of registrations is proved from it.
-/

namespace BehaviorEngine

variable {σ : Type}

/-! ### Environments -/

namespace Draft

/-- The environment with other elements of an enumeration. -/
def setElements (e : Draft σ) (i : EnumId) (elements : Enumeration) : Draft σ :=
  { e with symbols := { e.symbols with
      enumerations := e.symbols.enumerations.modifyAt i fun _ => elements } }

/-- The environment with other input symbols of a domain. -/
def setInputs (e : Draft σ) (d : Domain) (inputs : Registry (InputSymbol σ d)) :
    Draft σ :=
  { e with symbols := { e.symbols with inputs := e.symbols.inputs.set d inputs } }

/-- The environment with other output symbols of a domain. -/
def setOutputs (e : Draft σ) (d : Domain) (outputs : Registry (OutputSymbol σ d)) :
    Draft σ :=
  { e with symbols := { e.symbols with outputs := e.symbols.outputs.set d outputs } }

/-- An enumeration is called by a name; a typing of another domain has none. -/
def Names (e : Draft σ) : (d : Domain) → d.Typing → String → Prop
  | .enumerated, id, name => e.symbols.enumerations.name? id = some name
  | _, _, _ => True

end Draft

/-! ### Registrations -/

/-- **What a registration does** to an environment when it succeeds. -/
inductive Registration.Performs (e : Draft σ) : Registration σ → Draft σ → Prop
  | element {enumeration name : String} {value : Int32} {i : EnumId} {old elements : Enumeration}
      (hi : (e.withEnumeration enumeration).symbols.enumerations.find? enumeration = some (i, old))
      (h : old.append name value = .ok elements) :
      Performs e (.element enumeration name value)
        ((e.withEnumeration enumeration).setElements i elements)
  | input {d : Domain} {name enumeration : String} {binding : InputBinding σ d} {t : d.Typing}
      {inputs : Registry (InputSymbol σ d)} (ht : (e.typed enumeration d).Names d t enumeration)
      (h : (e.symbols.inputs.get d).append name ⟨t, binding, Parameters.none, none⟩ = .ok inputs) :
      Performs e (.input d name enumeration binding) ((e.typed enumeration d).setInputs d inputs)
  | output {d : Domain} {name enumeration : String} {binding : OutputBinding σ d} {t : d.Typing}
      {outputs : Registry (OutputSymbol σ d)} (ht : (e.typed enumeration d).Names d t enumeration)
      (h : (e.symbols.outputs.get d).append name ⟨t, binding⟩ = .ok outputs) :
      Performs e (.output d name enumeration binding)
        ((e.typed enumeration d).setOutputs d outputs)
  | inputParameter {d p : Domain} {symbol name enumeration slot : String} {i : Nat}
      {s : InputSymbol σ d} {t : p.Typing} {r : Registry (Parameter String p)}
      (hs : (e.symbols.inputs.get d).find? symbol = some (i, s))
      (ht : (e.typed enumeration p).Names p t enumeration)
      (h : (s.parameters.get p).append name ⟨t, slot⟩ = .ok r) :
      Performs e (.inputParameter d symbol p name enumeration slot)
        ((e.typed enumeration p).setInputs d ((e.symbols.inputs.get d).modifyAt i fun _ =>
          { s with parameters := s.parameters.set p r }))
  | inputChanged {d : Domain} {symbol : String} {call : World σ → World σ} {i : Nat}
      {s : InputSymbol σ d} (hs : (e.symbols.inputs.get d).find? symbol = some (i, s)) :
      Performs e (.inputChanged d symbol call)
        (e.setInputs d ((e.symbols.inputs.get d).modifyAt i fun _ =>
          { s with parametersChanged := some call }))
  | behavior {name : String} {run changed : World σ → World σ}
      {behaviors : Registry (BasicBehavior σ)}
      (h : e.behaviors.append name ⟨Parameters.none, run, changed⟩ = .ok behaviors) :
      Performs e (.behavior name run changed) { e with behaviors }
  | behaviorParameter {p : Domain} {owner name enumeration slot : String} {i : Nat}
      {b : BasicBehavior σ} {t : p.Typing} {r : Registry (Parameter String p)}
      (hb : e.behaviors.find? owner = some (i, b))
      (ht : (e.typed enumeration p).Names p t enumeration)
      (h : (b.parameters.get p).append name ⟨t, slot⟩ = .ok r) :
      Performs e (.behaviorParameter owner p name enumeration slot)
        { e.typed enumeration p with
          behaviors := e.behaviors.modifyAt i fun _ =>
            { b with parameters := b.parameters.set p r } }

namespace Registering

variable {α β : Type} {e e₁ : Draft σ}

/-- A typing is called by the name of the enumeration. -/
theorem exists_typing (enumeration : String) (d : Domain) (e : Draft σ) :
    ∃ t, (typing enumeration d).runOn e = (.ok t, e.typed enumeration d) ∧
      (e.typed enumeration d).Names d t enumeration := by
  cases d with
  | decimal | boolean => exact ⟨(), rfl, trivial⟩
  | enumerated =>
    refine ⟨_, runOn_enumeration enumeration e, ?_⟩
    have hfind := (e.symbols.enumerations.positionOrInsert_spec enumeration
      fun _ => Registry.empty).1
    rw [Registry.find?_eq_some_iff] at hfind
    change Registry.name? _ _ = _
    rw [Draft.typed, if_pos rfl, Draft.withEnumeration, Registry.name?,
      Registry.names_getElem?, hfind]
    rfl

theorem append_eq_ok {kind : NameKind} {r s : Registry β} {name : String} {x : β} :
    (append kind r name x : Registering σ _).runOn e = (.ok s, e₁) ↔
      r.append name x = .ok s ∧ e = e₁ := by
  unfold append
  cases r.append name x with
  | ok t =>
    constructor
    · intro h
      cases h
      exact ⟨rfl, rfl⟩
    · rintro ⟨h, rfl⟩
      cases h
      rfl
  | error error =>
    constructor
    · intro h
      cases h
    · rintro ⟨h, -⟩
      cases h

/-- A parameter is declared under a new name. -/
theorem register_eq_ok {parameters ps : Parameters String} {owner name : String} {p : Domain}
    {x : Parameter String p} (h : parameters.register owner p name x = .ok ps) :
    ∃ r, (parameters.get p).append name x = .ok r ∧ ps = parameters.set p r := by
  unfold Parameters.register Parameters.declare at h
  cases hr : (parameters.get p).append name x with
  | error error =>
    rw [hr] at h
    cases h
  | ok r =>
    rw [hr] at h
    cases h
    exact ⟨r, rfl, rfl⟩

/-! ### Kinds of registrations -/

section Kinds

variable {name enumeration slot : String} {d p : Domain}

theorem element_performs {value : Int32}
    (h : (element enumeration name value).runOn e = (.ok (), e₁)) :
    (Registration.element enumeration name value).Performs e e₁ := by
  rw [element, Stateful.runOn_bind, runOn_enumeration] at h
  simp only [Stateful.runOn_get_bind] at h
  have hfind := (e.symbols.enumerations.positionOrInsert_spec enumeration
    fun _ => Registry.empty).1
  have hat : ((e.withEnumeration enumeration).symbols.enumerations.at?
      (e.symbols.enumerations.positionOrInsert enumeration fun _ => Registry.empty).1) =
        some ((e.symbols.enumerations.get? enumeration).getD Registry.empty) := by
    rw [Registry.at?_eq, Draft.withEnumeration, Registry.find?_eq_some_iff.1 hfind]
    rfl
  simp only [hat] at h
  cases ha : ((e.symbols.enumerations.get? enumeration).getD Registry.empty).append name value with
  | error error =>
    rw [ha] at h
    cases h
  | ok elements =>
    rw [ha] at h
    cases h
    exact .element hfind ha

theorem input_performs {binding : InputBinding σ d}
    (h : (input d name enumeration binding).runOn e = (.ok (), e₁)) :
    (Registration.input d name enumeration binding).Performs e e₁ := by
  rw [input, Stateful.runOn_get_bind] at h
  split at h
  · cases h
  · obtain ⟨t, ht, hname⟩ := exists_typing enumeration d e
    rw [Stateful.runOn_bind, ht] at h
    simp only [Stateful.runOn_get_bind] at h
    obtain ⟨inputs, e₂, hinputs, h⟩ := Stateful.bind_eq_ok_iff.1 h
    obtain ⟨hadded, rfl⟩ := append_eq_ok.1 hinputs
    rw [Draft.typed_inputs] at hadded
    cases h
    exact .input hname hadded

theorem output_performs {binding : OutputBinding σ d}
    (h : (output d name enumeration binding).runOn e = (.ok (), e₁)) :
    (Registration.output d name enumeration binding).Performs e e₁ := by
  rw [output, Stateful.runOn_get_bind] at h
  split at h
  · cases h
  · obtain ⟨t, ht, hname⟩ := exists_typing enumeration d e
    rw [Stateful.runOn_bind, ht] at h
    simp only [Stateful.runOn_get_bind] at h
    obtain ⟨outputs, e₂, houtputs, h⟩ := Stateful.bind_eq_ok_iff.1 h
    obtain ⟨hadded, rfl⟩ := append_eq_ok.1 houtputs
    rw [Draft.typed_outputs] at hadded
    cases h
    exact .output hname hadded

theorem inputParameter_performs {symbol : String}
    (h : (inputParameter d symbol p name enumeration slot).runOn e = (.ok (), e₁)) :
    (Registration.inputParameter d symbol p name enumeration slot).Performs e e₁ := by
  rw [inputParameter, Stateful.runOn_bind, runOn_findInput] at h
  cases hs : (e.symbols.inputs.get d).find? symbol with
  | none =>
    rw [hs] at h
    cases h
  | some found =>
    obtain ⟨i, s⟩ := found
    obtain ⟨t, ht, hname⟩ := exists_typing enumeration p e
    simp only [hs] at h
    rw [Stateful.runOn_bind, ht] at h
    simp only [Stateful.runOn_bind, runOn_findInput, Draft.typed_inputs, hs] at h
    split at h
    · next ps hregister =>
      obtain ⟨r, hr, rfl⟩ := register_eq_ok hregister
      have hset : e₁ = (e.typed enumeration p).setInputs d
          ((e.symbols.inputs.get d).modifyAt i fun _ =>
            { s with parameters := s.parameters.set p r }) := by
        cases h
        simp only [Draft.setInputs, PerDomain.modify, Draft.typed_inputs]
      rw [hset]
      exact .inputParameter hs hname hr
    · cases h

theorem inputChanged_performs {symbol : String} {call : World σ → World σ}
    (h : (inputChanged d symbol call).runOn e = (.ok (), e₁)) :
    (Registration.inputChanged d symbol call).Performs e e₁ := by
  rw [inputChanged, Stateful.runOn_bind, runOn_findInput] at h
  cases hs : (e.symbols.inputs.get d).find? symbol with
  | none =>
    rw [hs] at h
    cases h
  | some found =>
    rw [hs] at h
    cases h
    exact .inputChanged hs

theorem behavior_performs {run changed : World σ → World σ}
    (h : (behavior name run changed).runOn e = (.ok (), e₁)) :
    (Registration.behavior name run changed).Performs e e₁ := by
  rw [behavior, Stateful.runOn_get_bind] at h
  obtain ⟨behaviors, e₂, hbehaviors, h⟩ := Stateful.bind_eq_ok_iff.1 h
  obtain ⟨hadded, rfl⟩ := append_eq_ok.1 hbehaviors
  cases h
  exact .behavior hadded

theorem behaviorParameter_performs {owner : String}
    (h : (behaviorParameter owner p name enumeration slot).runOn e = (.ok (), e₁)) :
    (Registration.behaviorParameter owner p name enumeration slot).Performs e e₁ := by
  rw [behaviorParameter, Stateful.runOn_bind, runOn_findBehavior] at h
  cases hb : e.behaviors.find? owner with
  | none =>
    rw [hb] at h
    cases h
  | some found =>
    obtain ⟨i, b⟩ := found
    obtain ⟨t, ht, hname⟩ := exists_typing enumeration p e
    simp only [hb] at h
    rw [Stateful.runOn_bind, ht] at h
    simp only [Stateful.runOn_bind, runOn_findBehavior, Draft.typed_behaviors, hb] at h
    split at h
    · next ps hregister =>
      obtain ⟨r, hr, rfl⟩ := register_eq_ok hregister
      have hset : e₁ = { e.typed enumeration p with
          behaviors := e.behaviors.modifyAt i fun _ =>
            { b with parameters := b.parameters.set p r } } := by
        cases h
        simp only [Draft.typed_behaviors]
      rw [hset]
      exact .behaviorParameter hb hname hr
    · cases h

end Kinds

end Registering

namespace Registration

open Registering

variable {e e₁ : Draft σ}

/-- **A registration that succeeds does what its kind does.** -/
theorem performs_of_runOn {r : Registration σ} (h : r.perform.runOn e = (.ok (), e₁)) :
    r.Performs e e₁ := by
  cases r with
  | element => exact element_performs h
  | input => exact input_performs h
  | output => exact output_performs h
  | inputParameter => exact inputParameter_performs h
  | inputChanged => exact inputChanged_performs h
  | behavior => exact behavior_performs h
  | behaviorParameter => exact behaviorParameter_performs h

/-- Some registrations, one after another. -/
inductive PerformsAll : Draft σ → List (Registration σ) → Draft σ → Prop
  | nil (e : Draft σ) : PerformsAll e [] e
  | cons {e e₁ e₂ : Draft σ} {r : Registration σ} {rs : List (Registration σ)}
      (h : r.Performs e e₁) (hs : PerformsAll e₁ rs e₂) : PerformsAll e (r :: rs) e₂

/-- **A sequence that succeeds as a whole** does what its registrations do. -/
theorem performsAll_of_runOn {rs : List (Registration σ)}
    (h : (rs.forM perform : Registering σ Unit).runOn e = (.ok (), e₁)) : PerformsAll e rs e₁ := by
  induction rs generalizing e with
  | nil =>
    cases h
    exact .nil _
  | cons r rs ih =>
    obtain ⟨_, e₂, hr, hrs⟩ := Stateful.bind_eq_ok_iff.1 h
    exact .cons (performs_of_runOn hr) (ih hrs)

end Registration

end BehaviorEngine
