import BehaviorEngine.Source.Lexeme

/-!
Diagnostics: messages that point into intermediate code, with the enclosing nodes as related
places.
-/

namespace BehaviorEngine

/-- How grave a diagnostic is. -/
inductive Severity where
  | error
  | warning
  | info
  deriving DecidableEq, Repr

/-- A further place of a diagnostic and what stands there. -/
structure Related where
  span : Span
  message : String
  deriving DecidableEq, Repr

/-- A message about a place in a source. -/
structure Diagnostic where
  severity : Severity
  message : String
  span : Span
  /-- The enclosing nodes, innermost first. -/
  related : List Related
  help : Option String
  code : Option String
  deriving DecidableEq, Repr

end BehaviorEngine
