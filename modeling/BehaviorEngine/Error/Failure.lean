import BehaviorEngine.Error.Construction
import BehaviorEngine.Error.Registration

/-!
What an embedding program is told when an operation of the engine fails.
-/

namespace BehaviorEngine

/-- A call that the engine cannot serve in its present state. -/
inductive Misuse where
  | noGraph
  | unknownAgent (name : String)
  | unknownOption (name : String)
  /-- A reference of the option graph leads nowhere. -/
  | brokenReference
  /-- A misuse that an embedding program reports in its own words. -/
  | other (message : String)
  deriving DecidableEq, Repr

/-- The text of a misuse. -/
def Misuse.message : Misuse → String
  | noGraph => "no option graph has been created"
  | unknownAgent name => s!"agent `{name}` does not exist"
  | unknownOption name => s!"option `{name}` does not exist"
  | brokenReference => "a reference of the option graph leads nowhere"
  | other message => message

/-- A failed operation. -/
inductive Failure where
  | misuse (reason : Misuse)
  | registration (error : RegistrationError)
  /-- The intermediate code is at fault; the diagnostics point into it. -/
  | construction (diagnostics : List Diagnostic) (source : String)
  deriving DecidableEq, Repr

namespace Failure

/-- The failure to build a graph from a source. -/
def ofConstruction (e : ConstructionError) (source : String) : Failure :=
  .construction [e.diagnostic] source

/-- The text of a failure: one line, for a construction the count of errors and the first
diagnostic. -/
def message : Failure → String
  | misuse reason => s!"API error: {reason.message}"
  | registration error => s!"Registration error: {error.message}"
  | construction diagnostics _ =>
    let errors := (diagnostics.filter (·.severity = .error)).length
    let count := s!"Option graph construction failed with {errors} error(s)"
    match diagnostics with
    | [] => count
    | first :: _ => s!"{count}: {first.message}"

end Failure

end BehaviorEngine
