import BehaviorEngine.Decimal.Numeral
import BehaviorEngine.Domain
import BehaviorEngine.EnvironmentFile.Line

/-!
The declarations of an environment file, one on a line. A line is read with the elements that the
lines above it declare; the first bad line decides what is wrong with the file.
-/

namespace BehaviorEngine

namespace EnvironmentFile

/-- What the first word of a line declares. -/
inductive Directive where
  | element
  | decimalInput
  | booleanInput
  | enumeratedInput
  | decimalOutput
  | booleanOutput
  | enumeratedOutput
  | inputParameter
  | behavior
  | behaviorParameter
  deriving DecidableEq, Repr

namespace Directive

/-- The word for a directive. -/
def word : Directive → String
  | element => "enum"
  | decimalInput => "decimal-input"
  | booleanInput => "boolean-input"
  | enumeratedInput => "enumerated-input"
  | decimalOutput => "decimal-output"
  | booleanOutput => "boolean-output"
  | enumeratedOutput => "enumerated-output"
  | inputParameter => "input-parameter"
  | behavior => "basic-behavior"
  | behaviorParameter => "behavior-parameter"

/-- The directive that a word stands for. -/
def ofWord? (text : String) : Option Directive :=
  [element, decimalInput, booleanInput, enumeratedInput, decimalOutput, booleanOutput,
    enumeratedOutput, inputParameter, behavior, behaviorParameter].find? fun d => d.word = text

/-- The form of a line. -/
def usage (d : Directive) : String :=
  d.word ++ match d with
    | element => " <enumeration> <element> <value>"
    | decimalInput => " <name> <value>"
    | booleanInput => " <name> <true|false>"
    | enumeratedInput => " <name> <enumeration> <element>"
    | decimalOutput | booleanOutput | behavior => " <name>"
    | enumeratedOutput => " <name> <enumeration>"
    | inputParameter => " <symbol> <d|b|e> <name> [<enumeration>]"
    | behaviorParameter => " <behavior> <d|b|e> <name> [<enumeration>]"

end Directive

/-! ### Errors -/

/-- What is wrong with a line. -/
inductive Problem where
  | unrecognized
  | unknownDirective (word : String)
  | usage (directive : Directive)
  | invalidValue (what found : String)
  | unknownElement (enumeration element : String)
  deriving DecidableEq, Repr

/-- A bad line. -/
structure FileError where
  line : Nat
  problem : Problem
  deriving DecidableEq, Repr

namespace Problem

/-- The text of a problem. -/
def message : Problem → String
  | unrecognized => "unrecognized input"
  | unknownDirective word => s!"unknown directive `{word}`"
  | usage directive => s!"usage: {directive.usage}"
  | invalidValue what found => s!"invalid {what} `{found}`"
  | unknownElement enumeration element =>
    s!"enumeration `{enumeration}` has no element `{element}`"

/-- The code of a problem. -/
def code : Problem → String
  | unrecognized => "xabsl::environment::syntax"
  | unknownDirective _ => "xabsl::environment::directive"
  | usage _ => "xabsl::environment::usage"
  | invalidValue _ _ => "xabsl::environment::value"
  | unknownElement _ _ => "xabsl::environment::element"

/-- Advice that goes with a problem. -/
def help? : Problem → Option String
  | unknownDirective _ =>
    some ("directives are enum, decimal-input, boolean-input, enumerated-input, decimal-output, "
      ++ "boolean-output, enumerated-output, input-parameter, basic-behavior and "
      ++ "behavior-parameter")
  | unknownElement _ _ => some "declare elements with `enum` before using them"
  | _ => none

end Problem

/-- The text of a bad line. -/
def FileError.message (e : FileError) : String := s!"line {e.line}: {e.problem.message}"

/-! ### Declarations -/

/-- A formal parameter of an input symbol or basic behavior. -/
structure ParameterDeclaration where
  domain : Domain
  name : String
  enumeration : Option String
  deriving DecidableEq, Repr

/-- What a line declares. -/
inductive Declaration where
  | element (enumeration name : String) (value : Int32)
  | decimalInput (name : String) (value : Decimal)
  | booleanInput (name : String) (value : Bool)
  | enumeratedInput (name enumeration : String) (value : Int32)
  | decimalOutput (name : String)
  | booleanOutput (name : String)
  | enumeratedOutput (name enumeration : String)
  | inputParameter (symbol : String) (parameter : ParameterDeclaration)
  | behavior (name : String)
  | behaviorParameter (behavior : String) (parameter : ParameterDeclaration)

/-- The elements declared so far with their values, the last one first. -/
abbrev Elements := List ((String × String) × Int32)

/-- The value that the last declaration of an element gives it. -/
def Elements.value? (known : Elements) (enumeration element : String) : Option Int32 :=
  known.lookup (enumeration, element)

/-- The elements with those of one more declaration. -/
def Elements.extend (known : Elements) : Declaration → Elements
  | .element enumeration name value => ((enumeration, name), value) :: known
  | _ => known

/-! ### Reading a line -/

/-- The result of `read`, or an invalid value. -/
def valueOr {α : Type} (what found : String) (read : String → Option α) : Except Problem α :=
  match read found with
  | some x => .ok x
  | none => .error (.invalidValue what found)

/-- A truth value. -/
def readTruth? : String → Option Bool
  | "true" => some true
  | "false" => some false
  | _ => none

/-- The words that declare a parameter. -/
def parameter : List String → Except Problem ParameterDeclaration
  | ["d", name] => .ok ⟨.decimal, name, none⟩
  | ["b", name] => .ok ⟨.boolean, name, none⟩
  | ["e", name, enumeration] => .ok ⟨.enumerated, name, some enumeration⟩
  | "d" :: _ | "b" :: _ | "e" :: _ | [] => .error .unrecognized
  | tag :: _ => .error (.invalidValue "parameter domain" tag)

/-- The declaration that a directive makes with the words behind it. -/
def declaration (known : Elements) : Directive → List String → Except Problem Declaration
  | .element, [enumeration, name, value] => do
    return .element enumeration name (← valueOr "element value" value readElementValue?)
  | .decimalInput, [name, value] => do
    return .decimalInput name (← valueOr "decimal" value readDecimal?)
  | .booleanInput, [name, value] => do
    return .booleanInput name (← valueOr "boolean" value readTruth?)
  | .enumeratedInput, [name, enumeration, element] =>
    match known.value? enumeration element with
    | some value => .ok (.enumeratedInput name enumeration value)
    | none => .error (.unknownElement enumeration element)
  | .decimalOutput, [name] => .ok (.decimalOutput name)
  | .booleanOutput, [name] => .ok (.booleanOutput name)
  | .enumeratedOutput, [name, enumeration] => .ok (.enumeratedOutput name enumeration)
  | .inputParameter, symbol :: word :: words => do
    return .inputParameter symbol (← parameter (word :: words))
  | .behavior, [name] => .ok (.behavior name)
  | .behaviorParameter, behavior :: word :: words => do
    return .behaviorParameter behavior (← parameter (word :: words))
  | directive, _ => .error (.usage directive)

/-- The declaration that the words of a line make. -/
def Line.declaration (known : Elements) (l : Line) : Except FileError Declaration :=
  let result : Except Problem Declaration := match l.words with
    | [] => .error .unrecognized
    | word :: words =>
      match Directive.ofWord? word with
      | some directive => EnvironmentFile.declaration known directive words
      | none => .error (.unknownDirective word)
  result.mapError fun problem => ⟨l.number, problem⟩

/-- The declarations that lines make after the given elements. -/
def declarations (known : Elements) : List Line → Except FileError (List Declaration)
  | [] => .ok []
  | l :: ls => do
    let d ← l.declaration known
    return d :: (← declarations (known.extend d) ls)

/-- The declarations of a file. -/
def parse (source : String) : Except FileError (List Declaration) :=
  declarations [] (lines source)

end EnvironmentFile

end BehaviorEngine
