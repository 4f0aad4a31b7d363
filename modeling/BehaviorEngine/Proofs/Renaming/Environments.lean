import BehaviorEngine.Proofs.Host.Enumerations
import BehaviorEngine.Proofs.Renaming.Positions

/-!
Environments with the same registrations in another order. The positions of enumerations, symbols
and basic behaviors differ; what stands at positions that correspond is the same, but for the
enumerations that it mentions. Nothing but positions tells the two environments apart: names,
elements, parameters and the functions of the host are the same.
-/

namespace BehaviorEngine

variable {σ slot : Type} {d : Domain}

/-! ### Renamings -/

/-- Where the positions of one environment are in another one. -/
structure Renaming where
  enumeration : Equiv.Perm Nat
  input : Domain → Equiv.Perm Nat
  output : Domain → Equiv.Perm Nat
  behavior : Equiv.Perm Nat

/-- What the values of a use agree with, in the other environment. -/
def Renaming.typing (ρ : Renaming) : (d : Domain) → d.Typing → d.Typing
  | .decimal, t => t
  | .boolean, t => t
  | .enumerated, id => ρ.enumeration id

@[simp] theorem Renaming.typing_enumerated (ρ : Renaming) (id : EnumId) :
    ρ.typing .enumerated id = ρ.enumeration id := rfl

/-! ### What stands at a position -/

/-- A parameter with the enumeration where the other environment has it. -/
def Parameter.rename (ρ : Renaming) (x : Parameter slot d) : Parameter slot d :=
  ⟨ρ.typing d x.typing, x.slot⟩

/-- Parameters with their enumerations where the other environment has them. -/
def Parameters.rename (ρ : Renaming) (ps : Parameters slot) : Parameters slot :=
  ps.map fun _ r => r.map (Parameter.rename ρ)

@[simp] theorem Parameters.get_rename (ρ : Renaming) (ps : Parameters slot) (d : Domain) :
    (ps.rename ρ).get d = (ps.get d).map (Parameter.rename ρ) := PerDomain.get_map _ _ _

theorem Parameters.set_rename (ρ : Renaming) (ps : Parameters slot) (d : Domain)
    (r : Registry (Parameter slot d)) :
    Parameters.rename ρ (ps.set d r) = (ps.rename ρ).set d (r.map (Parameter.rename ρ)) := by
  cases d <;> rfl

/-- An input symbol with its enumerations where the other environment has them. -/
def InputSymbol.rename (ρ : Renaming) (s : InputSymbol σ d) : InputSymbol σ d :=
  { s with typing := ρ.typing d s.typing, parameters := s.parameters.rename ρ }

/-- An output symbol with its enumeration where the other environment has it. -/
def OutputSymbol.rename (ρ : Renaming) (s : OutputSymbol σ d) : OutputSymbol σ d :=
  { s with typing := ρ.typing d s.typing }

/-- A basic behavior with its enumerations where the other environment has them. -/
def BasicBehavior.rename (ρ : Renaming) (b : BasicBehavior σ) : BasicBehavior σ :=
  { b with parameters := b.parameters.rename ρ }

/-! ### Environments -/

/-- **Symbols in another order.** -/
structure Symbols.Renames (ρ : Renaming) (s s' : Symbols σ) : Prop where
  enumerations : s.enumerations.Moves ρ.enumeration id s'.enumerations
  inputs : ∀ d, (s.inputs.get d).Moves (ρ.input d) (InputSymbol.rename ρ) (s'.inputs.get d)
  outputs : ∀ d, (s.outputs.get d).Moves (ρ.output d) (OutputSymbol.rename ρ) (s'.outputs.get d)

/-- **Registrations in another order**: under the same names there are the same enumerations with
the same elements, and the same symbols and behaviors with the same bindings, parameters and
functions of the host, over enumerations of the same names. -/
structure Draft.Renames (ρ : Renaming) (e e' : Draft σ) : Prop where
  symbols : e.symbols.Renames ρ e'.symbols
  behaviors : e.behaviors.Moves ρ.behavior (BasicBehavior.rename ρ) e'.behaviors

/-- An environment with its entries in another order. -/
abbrev Environment.Renames (ρ : Renaming) (e e' : Environment σ) : Prop :=
  e.toDraft.Renames ρ e'.toDraft

namespace Symbols.Renames

variable {ρ : Renaming} {s s' : Symbols σ}

theorem enumeration?_eq (h : s.Renames ρ s') (id : EnumId) :
    s'.enumeration? (ρ.enumeration id) = s.enumeration? id :=
  (h.enumerations id).trans (congrFun Option.map_id _)

end Symbols.Renames

end BehaviorEngine
