import BehaviorEngine.Domain

/-!
Expressions over the three domains, as trees. An expression reads constants, parameters of the
option it stands in, symbols of the host and the two clocks; a reading of an input symbol is a
call site, which binds the parameters of the symbol.

A tag is one letter. The same letter stands for different things in different domains.
-/

namespace BehaviorEngine

/-- Operations on two decimals. -/
inductive ArithmeticOp where
  | add
  | sub
  | mul
  | div
  | mod
  deriving DecidableEq, Repr

/-- The sign of an operation in messages. -/
def ArithmeticOp.sign : ArithmeticOp → String
  | add => "+"
  | sub => "-"
  | mul => "*"
  | div => "/"
  | mod => "%"

/-- Comparisons of two decimals. -/
inductive RelationalOp where
  | eq
  | ne
  | lt
  | le
  | gt
  | ge
  deriving DecidableEq, Repr

/-- The sign of a comparison in messages. -/
def RelationalOp.sign : RelationalOp → String
  | eq => "=="
  | ne => "!="
  | lt => "<"
  | le => "<="
  | gt => ">"
  | ge => ">="

/-- The connectives of any number of truth values. -/
inductive Connective where
  | and
  | or
  deriving DecidableEq, Repr

/-- The sign of a connective in messages. -/
def Connective.sign : Connective → String
  | and => "&&"
  | or => "||"

/-! ### Trees -/

mutual

/-- An expression of a domain. Symbols and parameters are given by their positions. -/
inductive Expr : Domain → Type
  | literal {d : Domain} (typing : d.Typing) (value : d.Value) : Expr d
  /-- A formal parameter of the option in which the expression stands. -/
  | parameter {d : Domain} (typing : d.Typing) (index : Nat) : Expr d
  | input {d : Domain} (typing : d.Typing) (symbol : Nat) (arguments : List Binding) : Expr d
  | output {d : Domain} (typing : d.Typing) (symbol : Nat) : Expr d
  /-- One of two expressions; only the selected one is evaluated. -/
  | choice {d : Domain} (condition : Expr .boolean) (yes no : Expr d) : Expr d
  | arithmetic (op : ArithmeticOp) (left right : Expr .decimal) : Expr .decimal
  /-- How long the state in which the expression stands has been active. -/
  | stateTime : Expr .decimal
  /-- How long the option in which the expression stands has been active. -/
  | optionTime : Expr .decimal
  | connective (op : Connective) (operands : List (Expr .boolean)) : Expr .boolean
  | not (operand : Expr .boolean) : Expr .boolean
  | relation (op : RelationalOp) (left right : Expr .decimal) : Expr .boolean
  | sameElement (left right : Expr .enumerated) : Expr .boolean
  /-- Whether an option activated by the state in which the expression stands rests in a target
  state. -/
  | reachedTarget : Expr .boolean

/-- An expression bound to the parameter of a domain at a position. -/
inductive Binding : Type
  | mk (domain : Domain) (index : Nat) (value : Expr domain) : Binding

end

namespace Binding

/-- The domain of the bound parameter. -/
def domain : Binding → Domain
  | mk d _ _ => d

/-- The position of the bound parameter. -/
def index : Binding → Nat
  | mk _ i _ => i

/-- Bindings in the order in which they are evaluated: decimals, truth values, enumerated values,
each in the order of the code. -/
def arrange (bs : List Binding) : List Binding :=
  Domain.all.flatMap fun d => bs.filter fun b => b.domain = d

end Binding

/-- What the values of an expression agree with: for an enumerated expression, the enumeration of
the symbol, parameter or element that it names first. -/
def Expr.typing : {d : Domain} → Expr d → d.Typing
  | _, .literal t _ => t
  | _, .parameter t _ => t
  | _, .input t _ _ => t
  | _, .output t _ => t
  | _, .choice _ yes _ => yes.typing
  | _, .arithmetic .. => ()
  | _, .stateTime => ()
  | _, .optionTime => ()
  | _, .connective .. => ()
  | _, .not _ => ()
  | _, .relation .. => ()
  | _, .sameElement .. => ()
  | _, .reachedTarget => ()

/-! ### Tags -/

/-- The form of an expression, which its tag tells. -/
inductive Expr.Form : Domain → Type
  | literal {d : Domain} : Form d
  | parameter {d : Domain} : Form d
  | input {d : Domain} : Form d
  | output {d : Domain} : Form d
  | choice {d : Domain} : Form d
  | arithmetic (op : ArithmeticOp) : Form .decimal
  | stateTime : Form .decimal
  | optionTime : Form .decimal
  | connective (op : Connective) : Form .boolean
  | not : Form .boolean
  | relation (op : RelationalOp) : Form .boolean
  | sameElement : Form .boolean
  | reachedTarget : Form .boolean

namespace Expr.Form

/-- The form that a letter stands for in decimal expressions. -/
def ofDecimalTag? : Char → Option (Form .decimal)
  | 'v' | 'c' => some .literal
  | 'p' => some .parameter
  | 'i' => some .input
  | 'o' => some .output
  | 'q' => some .choice
  | '+' => some (.arithmetic .add)
  | '-' => some (.arithmetic .sub)
  | '*' => some (.arithmetic .mul)
  | 'd' => some (.arithmetic .div)
  | '%' => some (.arithmetic .mod)
  | 's' => some .stateTime
  | 't' => some .optionTime
  | _ => none

/-- The form that a letter stands for in boolean expressions. -/
def ofBooleanTag? : Char → Option (Form .boolean)
  | 'v' => some .literal
  | 'p' => some .parameter
  | 'i' => some .input
  | 'o' => some .output
  | 'q' => some .choice
  | '&' => some (.connective .and)
  | '|' => some (.connective .or)
  | '!' => some .not
  | '=' => some (.relation .eq)
  | 'n' => some (.relation .ne)
  | '<' => some (.relation .lt)
  | 'l' => some (.relation .le)
  | '>' => some (.relation .gt)
  | 'g' => some (.relation .ge)
  | 'c' => some .sameElement
  | 't' => some .reachedTarget
  | _ => none

/-- The form that a letter stands for in enumerated expressions. -/
def ofEnumeratedTag? : Char → Option (Form .enumerated)
  | 'v' => some .literal
  | 'p' => some .parameter
  | 'i' => some .input
  | 'o' => some .output
  | 'q' => some .choice
  | _ => none

/-- The form that a letter stands for in expressions of a domain. -/
def ofTag? : (d : Domain) → Char → Option (Form d)
  | .decimal => ofDecimalTag?
  | .boolean => ofBooleanTag?
  | .enumerated => ofEnumeratedTag?

end Expr.Form

end BehaviorEngine
