import BehaviorEngine.Host.World
import BehaviorEngine.Parameters

/-!
The environment of an option graph: the enumerations, symbols and basic behaviors that the host
has registered, in the order of registration. Symbols of different domains, and input and output
symbols, have separate names.

Enumerated symbols and parameters mention their enumeration by its position. An environment is a
draft in which all of these positions are taken.
-/

namespace BehaviorEngine

/-- The elements of an enumeration with their values. -/
abbrev Enumeration := Registry Int32

/-- The first element that has the given value. -/
def Enumeration.elementName? (e : Enumeration) (value : Int32) : Option String :=
  (e.entries.find? fun x => x.2 = value).map Prod.fst

/-- A named value that the host supplies. -/
structure InputSymbol (σ : Type) (d : Domain) where
  typing : d.Typing
  binding : InputBinding σ d
  parameters : Parameters String
  /-- Called before a reading for which a call site has bound other values than the last time. -/
  parametersChanged : Option (World σ → World σ)

/-- A named value that the engine assigns. -/
structure OutputSymbol (σ : Type) (d : Domain) where
  typing : d.Typing
  binding : OutputBinding σ d

/-- A leaf behavior that the host implements. -/
structure BasicBehavior (σ : Type) where
  parameters : Parameters String
  run : World σ → World σ
  /-- Called before a run for which the call site has bound other values than the last time. -/
  parametersChanged : World σ → World σ

/-- Enumerations and symbols. -/
structure Symbols (σ : Type) where
  enumerations : Registry Enumeration
  inputs : PerDomain fun d => Registry (InputSymbol σ d)
  outputs : PerDomain fun d => Registry (OutputSymbol σ d)

namespace Symbols

variable {σ : Type}

/-- Nothing is registered. -/
def empty : Symbols σ where
  enumerations := Registry.empty
  inputs := PerDomain.ofFn fun _ => Registry.empty
  outputs := PerDomain.ofFn fun _ => Registry.empty

/-- The enumeration at a position, with its name. -/
def enumeration? (s : Symbols σ) (id : EnumId) : Option (String × Enumeration) :=
  s.enumerations.entries[id]?

/-- What values agree with is known: the enumeration of enumerated ones is registered. -/
def Knows (s : Symbols σ) : (d : Domain) → d.Typing → Prop
  | .enumerated, id => id < s.enumerations.size
  | _, _ => True

instance (s : Symbols σ) : (d : Domain) → (t : d.Typing) → Decidable (s.Knows d t)
  | .decimal, _ => .isTrue trivial
  | .boolean, _ => .isTrue trivial
  | .enumerated, id => inferInstanceAs (Decidable (id < s.enumerations.size))

end Symbols

/-- What the values of all parameters agree with is known. -/
def Parameters.KnownTo {σ slot : Type} (s : Symbols σ) (p : Parameters slot) : Prop :=
  ∀ d, ∀ x ∈ (p.get d).values, s.Knows d x.typing

instance {σ slot : Type} (s : Symbols σ) (p : Parameters slot) : Decidable (p.KnownTo s) :=
  decidable_of_iff (∀ d ∈ Domain.all, ∀ x ∈ (p.get d).values, s.Knows d x.typing)
    ⟨fun h d => h d (Domain.mem_all d), fun h d _ => h d⟩

/-- What has been registered so far. -/
structure Draft (σ : Type) where
  symbols : Symbols σ
  behaviors : Registry (BasicBehavior σ)

namespace Draft

variable {σ : Type}

/-- Nothing is registered. -/
def empty : Draft σ := ⟨Symbols.empty, Registry.empty⟩

/-- Every enumeration that a symbol or a parameter belongs to is registered. -/
structure Sound (e : Draft σ) : Prop where
  inputs : ∀ d, ∀ s ∈ (e.symbols.inputs.get d).values,
    e.symbols.Knows d s.typing ∧ s.parameters.KnownTo e.symbols
  outputs : ∀ d, ∀ s ∈ (e.symbols.outputs.get d).values, e.symbols.Knows d s.typing
  behaviors : ∀ b ∈ e.behaviors.values, b.parameters.KnownTo e.symbols

instance (e : Draft σ) : Decidable e.Sound :=
  decidable_of_iff
    ((∀ d ∈ Domain.all, ∀ s ∈ (e.symbols.inputs.get d).values,
      e.symbols.Knows d s.typing ∧ s.parameters.KnownTo e.symbols) ∧
    (∀ d ∈ Domain.all, ∀ s ∈ (e.symbols.outputs.get d).values, e.symbols.Knows d s.typing) ∧
    ∀ b ∈ e.behaviors.values, b.parameters.KnownTo e.symbols)
    ⟨fun ⟨hi, ho, hb⟩ => ⟨fun d => hi d (Domain.mem_all d), fun d => ho d (Domain.mem_all d), hb⟩,
      fun h => ⟨fun d _ => h.inputs d, fun d _ => h.outputs d, h.behaviors⟩⟩

theorem empty_sound : (empty : Draft σ).Sound where
  inputs d := by cases d <;> exact nofun
  outputs d := by cases d <;> exact nofun
  behaviors := nofun

end Draft

/-- Everything that intermediate code may refer to by name. -/
structure Environment (σ : Type) extends Draft σ where
  sound : toDraft.Sound

/-- Nothing is registered. -/
def Environment.empty {σ : Type} : Environment σ := ⟨Draft.empty, Draft.empty_sound⟩

end BehaviorEngine
