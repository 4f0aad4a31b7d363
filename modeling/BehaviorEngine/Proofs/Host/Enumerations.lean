import BehaviorEngine.Host.Environment

/-!
Enumerations by position: a position is taken exactly if values of its enumeration are known, and
what an element stands for is read off the enumeration.
-/

namespace BehaviorEngine

namespace Symbols

variable {σ : Type} {s : Symbols σ} {id : EnumId} {d : Domain}

/-- The value of an element of the enumeration at a position. -/
def elementValue? (s : Symbols σ) (id : EnumId) (element : String) : Option Int32 :=
  (s.enumeration? id).bind fun (_, elements) => elements.get? element

theorem enumeration?_isSome_iff : (s.enumeration? id).isSome ↔ s.Knows .enumerated id := by
  rw [enumeration?, isSome_getElem?]
  rfl

/-- The enumeration of values that are known is found. -/
theorem Knows.exists_enumeration (h : s.Knows .enumerated id) :
    ∃ name elements, s.enumeration? id = some (name, elements) := by
  obtain ⟨x, hx⟩ := Option.isSome_iff_exists.1 (enumeration?_isSome_iff.2 h)
  exact ⟨x.1, x.2, hx⟩

theorem elementValue?_of_enumeration? {name element : String} {elements : Enumeration}
    (h : s.enumeration? id = some (name, elements)) :
    s.elementValue? id element = elements.get? element := by
  rw [elementValue?, h]
  rfl

end Symbols

end BehaviorEngine
