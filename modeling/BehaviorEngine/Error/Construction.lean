import BehaviorEngine.Error.Name
import BehaviorEngine.Error.Diagnostic

/-!
Why an option graph cannot be built. An error has a cause, the place of the word at fault, and the
nodes that were under construction, innermost first.
-/

namespace BehaviorEngine

/-- What is wrong with the intermediate code. -/
inductive Cause where
  | unexpectedEnd
  | unrecognizedInput (text : String)
  | wordTooLong (length limit : Nat)
  | invalidValue (found : String)
  | invalidCount (found : String)
  | invalidBoolean (found : String)
  | invalidTargetFlag (found : String)
  | unknownTag (position : TagPosition) (tag : String)
  | outOfOrder (kind : NameKind) (expected found : String)
  | emptyGraph
  | trailingInput (found : String)
  | nestingTooDeep (limit : Nat)
  | unresolved (kind : NameKind) (name : String)
  | unknownElement (enumeration element : String)
  | duplicate (kind : NameKind) (name : String)
  | unboundParameter (name target : String)
  | duplicateBinding (name target : String)
  | missingOperands (operator : String)
  | enumerationMismatch (expected found : String)
  | untypedElement (element : String)
  deriving DecidableEq, Repr

namespace Cause

/-- The text of a cause. -/
def message : Cause → String
  | unexpectedEnd => "unexpected end of intermediate code"
  | unrecognizedInput text => s!"unrecognized input `{text}`"
  | wordTooLong length limit => s!"token of {length} bytes exceeds the limit of {limit} bytes"
  | invalidValue found => s!"expected a decimal value, found `{found}`"
  | invalidCount found => s!"expected a non-negative count, found `{found}`"
  | invalidBoolean found => s!"expected `true` or `false`, found `{found}`"
  | invalidTargetFlag found => s!"expected target state flag `0` or `1`, found `{found}`"
  | unknownTag position tag => s!"unknown {position.text} tag `{tag}`"
  | outOfOrder kind expected found => s!"expected {kind.text} `{expected}`, found `{found}`"
  | emptyGraph => "intermediate code declares no options"
  | trailingInput found => s!"unexpected trailing input `{found}`"
  | nestingTooDeep limit => s!"nesting exceeds the maximum depth of {limit}"
  | unresolved kind name => s!"{kind.text} `{name}` does not exist"
  | unknownElement enumeration element =>
    s!"enumeration `{enumeration}` has no element `{element}`"
  | duplicate kind name => s!"{kind.text} `{name}` is declared more than once"
  | unboundParameter name target => s!"parameter `{name}` of `{target}` is not bound"
  | duplicateBinding name target => s!"parameter `{name}` of `{target}` is bound more than once"
  | missingOperands operator => s!"`{operator}` needs at least one operand"
  | enumerationMismatch expected found =>
    s!"enumeration mismatch: expected `{expected}`, found `{found}`"
  | untypedElement element =>
    s!"enumerated value `{element}` has no enumeration to resolve against"

/-- Advice that goes with a cause. -/
def help? : Cause → Option String
  | unresolved (.inputSymbol _) _ | unresolved (.outputSymbol _) _ =>
    some "symbols must be registered before the option graph is created"
  | unresolved .basicBehavior _ =>
    some "basic behaviors must be registered before the option graph is created"
  | wordTooLong _ _ =>
    some "raise `EngineOptions::max_token_length` if the name is legitimate"
  | nestingTooDeep _ =>
    some "raise `EngineOptions::max_nesting_depth` if the code is legitimate"
  | _ => none

end Cause

/-- A node that was under construction when an error arose, or a declaration it is about. -/
inductive Enclosing where
  | option (name : String)
  | state (name : String)
  | action (what : String)
  | parameter (name : String)
  | operand (operator : String)
  | agent (name : String)
  | declaration (what : String)
  deriving DecidableEq, Repr

/-- The text of an enclosing node. -/
def Enclosing.message : Enclosing → String
  | option name => s!"in option `{name}`"
  | state name => s!"in state `{name}`"
  | action what => s!"in {what}"
  | parameter name => s!"in parameter `{name}`"
  | operand operator => s!"in operand of `{operator}`"
  | agent name => s!"in agent `{name}`"
  | declaration what => s!"{what} declared here"

/-- An enclosing node and the place of the word that names it. -/
structure Frame where
  node : Enclosing
  span : Span
  deriving DecidableEq, Repr

/-- A failure to build an option graph. -/
structure ConstructionError where
  cause : Cause
  span : Span
  /-- The enclosing nodes, innermost first. -/
  frames : List Frame := []
  deriving DecidableEq, Repr

namespace ConstructionError

/-- The error with one more enclosing node around it. -/
def within (e : ConstructionError) (frame : Frame) : ConstructionError :=
  { e with frames := e.frames ++ [frame] }

/-- The cause, and a line for each enclosing node. -/
def message (e : ConstructionError) : String :=
  e.frames.foldl (fun text f => text ++ "\n  " ++ f.node.message) e.cause.message

def diagnostic (e : ConstructionError) : Diagnostic where
  severity := .error
  message := e.cause.message
  span := e.span
  related := e.frames.map fun f => ⟨f.span, f.node.message⟩
  help := e.cause.help?
  code := none

end ConstructionError

end BehaviorEngine
