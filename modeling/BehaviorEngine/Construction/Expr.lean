import BehaviorEngine.Construction.Basic
import BehaviorEngine.Construction.Scope
import BehaviorEngine.Expr.Basic

/-!
Construction of expressions. An expression begins with its tag. Of an enumerated expression it may
be known which enumeration it has to belong to; an element can only be read if it is known, and a
symbol or parameter of another enumeration is refused where it is named.

A call site begins with the count of its bindings and binds every parameter of its target exactly
once, in any order.
-/

namespace BehaviorEngine

namespace Construct

variable {σ slot : Type}

/-! ### Call sites -/

/-- A function that constructs expressions of every domain, given what their values have to agree
with, as far as it is known. -/
abbrev ExprReader := (d : Domain) → Option d.Typing → Construct (Expr d)

/-- One binding of a call site, after the given ones. -/
def binding (expression : ExprReader) (target : Parameters slot) (owner : String)
    (bound : List Binding) : Construct Binding := do
  let tag ← word
  let name ← word
  match tag.tag?.bind Domain.ofTag? with
  | none => unknownTag .parameterBinding tag
  | some d =>
    let (index, parameter) ← resolve (.parameter d) (target.get d) name
    if bound.any fun b => b.domain = d ∧ b.index = index then
      fail (.duplicateBinding name.text owner) name.span
    let value ← within (.parameter name.text) name.span (expression d (some parameter.typing))
    return .mk d index value

/-- The first parameter of a domain that is not bound. -/
def firstUnbound? (target : Parameters slot) (bound : List Binding) (d : Domain) : Option String :=
  ((target.get d).names.zipIdx.find? fun p =>
    ! bound.any fun b => b.domain = d ∧ b.index = p.2).map Prod.fst

/-- The bindings of a call site of the target called `owner`, in the order in which they are
evaluated. -/
def arguments (expression : ExprReader) (target : Parameters slot) (owner : String) :
    Construct (List Binding) := do
  let (n, span) ← count
  let bound ← iterate (fun bs => return bs ++ [← binding expression target owner bs]) n []
  match Domain.all.findSome? (firstUnbound? target bound) with
  | some name => fail (.unboundParameter name owner) span
  | none => return Binding.arrange bound

/-! ### Expressions -/

/-- The enumeration of what `name` stands for, with its name. It is always found: environments and
headers only mention positions that are taken. -/
def enumerationOf (symbols : Symbols σ) (name : Word) (id : EnumId) :
    Construct (String × Enumeration) :=
  match symbols.enumeration? id with
  | some found => pure found
  | none => fail (.unresolved .enumeration name.text) name.span

/-- Stops if the values of what `name` stands for do not agree with what is expected. -/
def agree (symbols : Symbols σ) (name : Word) :
    (d : Domain) → (expected : Option d.Typing) → (found : d.Typing) → Construct Unit
  | .enumerated, some expected, found =>
    if expected = found then pure ()
    else do
      let (expected, _) ← enumerationOf symbols name expected
      let (found, _) ← enumerationOf symbols name found
      fail (.enumerationMismatch expected found) name.span
  | _, _, _ => pure ()

/-- A constant. -/
def literal (symbols : Symbols σ) :
    (d : Domain) → Option d.Typing → Construct (Expr d)
  | .decimal, _ => return .literal () (← value)
  | .boolean, _ => return .literal () (← truth)
  | .enumerated, expected => do
    let element ← word
    match expected with
    | none => fail (.untypedElement element.text) element.span
    | some id =>
      let (name, elements) ← enumerationOf symbols element id
      match elements.get? element.text with
      | some x => return .literal id x
      | none => fail (.unknownElement name element.text) element.span

/-- What follows the tag of an expression of the given form; `inner` constructs the expressions
inside. -/
def formed (scope : Scope σ) (inner : ExprReader) (tag : Word) :
    {d : Domain} → Option d.Typing → Expr.Form d → Construct (Expr d)
  | d, expected, .literal => literal scope.symbols d expected
  | d, expected, .parameter => do
    let name ← word
    let (i, p) ← resolve (.optionParameter d) (scope.parameters.get d) name
    agree scope.symbols name d expected p.typing
    return .parameter p.typing i
  | d, expected, .input => do
    let name ← word
    let (i, s) ← resolve (.inputSymbol d) (scope.symbols.inputs.get d) name
    agree scope.symbols name d expected s.typing
    return .input s.typing i (← arguments inner s.parameters name.text)
  | d, expected, .output => do
    let name ← word
    let (i, s) ← resolve (.outputSymbol d) (scope.symbols.outputs.get d) name
    agree scope.symbols name d expected s.typing
    return .output s.typing i
  | d, expected, .choice => do
    let condition ← inner .boolean none
    let yes ← inner d expected
    let no ← inner d (some yes.typing)
    return .choice condition yes no
  | _, _, .arithmetic op => do
    let left ← operand op.sign .decimal none
    let right ← operand op.sign .decimal none
    return .arithmetic op left right
  | _, _, .stateTime => return .stateTime
  | _, _, .optionTime => return .optionTime
  | _, _, .connective op => do
    let (n, _) ← count
    if n = 0 then fail (.missingOperands op.sign) tag.span
    return .connective op (← many n (operand op.sign .boolean none))
  | _, _, .not => return .not (← operand "!" .boolean none)
  | _, _, .relation op => do
    let left ← operand op.sign .decimal none
    let right ← operand op.sign .decimal none
    return .relation op left right
  | _, _, .sameElement => do
    let left ← operand "==" .enumerated none
    let right ← operand "==" .enumerated (some left.typing)
    return .sameElement left right
  | _, _, .reachedTarget => return .reachedTarget
where
  /-- An operand of the operator that the tag stands for. -/
  operand (sign : String) (d : Domain) (expected : Option d.Typing) : Construct (Expr d) :=
    within (.operand sign) tag.span (inner d expected)

/-- An expression nested at most `depth` levels deep. -/
def expression (scope : Scope σ) : (depth : Nat) → ExprReader
  | 0, _, _ => tooDeep scope.limits
  | depth + 1, d, expected => do
    let tag ← word
    match tag.tag?.bind (Expr.Form.ofTag? d) with
    | none => unknownTag (.expression d) tag
    | some form => formed scope (expression scope depth) tag expected form

end Construct

end BehaviorEngine
