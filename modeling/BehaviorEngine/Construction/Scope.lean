import BehaviorEngine.Host.Environment
import BehaviorEngine.Limits
import BehaviorEngine.Source.Lexeme

/-!
What a part of an option's body may refer to by name.
-/

namespace BehaviorEngine

/-- The declaration of an option in front of all bodies. -/
structure Header where
  parameters : Parameters Unit
  /-- The place of the name. -/
  span : Span

/-- The names known inside an option's body. -/
structure Scope (σ : Type) where
  limits : Limits
  symbols : Symbols σ
  behaviors : Registry (BasicBehavior σ)
  /-- All options, also those whose bodies come later. -/
  options : Registry Header
  /-- The formal parameters of the option itself. -/
  parameters : Parameters Unit
  /-- The states of the option itself. -/
  states : Registry Unit

end BehaviorEngine
