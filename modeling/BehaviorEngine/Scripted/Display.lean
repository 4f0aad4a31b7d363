import BehaviorEngine.Engine.Snapshot

/-!
What a session displays of an environment. All enumerations that an environment mentions are
registered, so each of these looks up something that is there; the defaults are never displayed.
-/

namespace BehaviorEngine

variable {σ : Type}

/-- The name of an enumeration. -/
def Symbols.enumerationName (s : Symbols σ) (id : EnumId) : String :=
  ((s.enumeration? id).map Prod.fst).getD ""

/-- The first element of an enumeration that has the given value. -/
def Symbols.elementName? (s : Symbols σ) (id : EnumId) (value : Int32) : Option String :=
  (s.enumeration? id).bind fun (_, elements) => elements.elementName? value

/-- The parameters of a symbol or behavior with the values in their slots. -/
def Parameters.inSlots (symbols : Symbols σ) (w : World σ) (p : Parameters String) :
    List ShownParameter :=
  (p.inSlots? symbols w).getD []

/-- The parameters of an option with the values that were bound to them. -/
def Parameters.bound (symbols : Symbols σ) (values : PerDomain fun d => List d.Value)
    (p : Parameters Unit) : List ShownParameter :=
  (p.bound? symbols values).getD []

end BehaviorEngine
