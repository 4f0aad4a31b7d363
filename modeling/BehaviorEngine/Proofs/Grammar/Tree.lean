import BehaviorEngine.Graph.Basic
import BehaviorEngine.Construction.Graph

/-!
The grammar of intermediate code. A tree of this module is a sentence or a part of one, with names,
numbers and counts as they are written; `words` spells it out, and `depth` tells how deep its
expressions and decision trees are nested. What the names stand for is no matter of the grammar.
-/

namespace BehaviorEngine

namespace Grammar

/-! ### Tags -/

/-- The letter in front of an operation on two decimals. -/
def arithmeticTag : ArithmeticOp → String
  | .add => "+"
  | .sub => "-"
  | .mul => "*"
  | .div => "d"
  | .mod => "%"

/-- The letter in front of a comparison. -/
def relationTag : RelationalOp → String
  | .eq => "="
  | .ne => "n"
  | .lt => "<"
  | .le => "l"
  | .gt => ">"
  | .ge => "g"

/-- The letter in front of a connective. -/
def connectiveTag : Connective → String
  | .and => "&"
  | .or => "|"

/-- The letter of a domain, in declarations, bindings and assignments. -/
def domainTag : Domain → String
  | .decimal => "d"
  | .boolean => "b"
  | .enumerated => "e"

/-! ### Expressions -/

mutual

/-- An expression of a domain, as it is written. -/
inductive Term : Domain → Type
  | literal {d : Domain} (value : String) : Term d
  /-- A decimal under its second tag. -/
  | constant (value : String) : Term .decimal
  | parameter {d : Domain} (name : String) : Term d
  | input {d : Domain} (name count : String) (arguments : List Assignment) : Term d
  | output {d : Domain} (name : String) : Term d
  | choice {d : Domain} (condition : Term .boolean) (yes no : Term d) : Term d
  | arithmetic (op : ArithmeticOp) (left right : Term .decimal) : Term .decimal
  | stateTime : Term .decimal
  | optionTime : Term .decimal
  | connective (op : Connective) (count : String) (operands : List (Term .boolean)) : Term .boolean
  | not (operand : Term .boolean) : Term .boolean
  | relation (op : RelationalOp) (left right : Term .decimal) : Term .boolean
  | sameElement (left right : Term .enumerated) : Term .boolean
  | reachedTarget : Term .boolean

/-- A parameter and the expression that is bound to it. -/
inductive Assignment : Type
  | mk (domain : Domain) (name : String) (value : Term domain) : Assignment

end

mutual

/-- The words of an expression. -/
def Term.words : {d : Domain} → Term d → List String
  | _, .literal value => ["v", value]
  | _, .constant value => ["c", value]
  | _, .parameter name => ["p", name]
  | _, .input name count arguments => "i" :: name :: count :: Assignment.allWords arguments
  | _, .output name => ["o", name]
  | _, .choice condition yes no => "q" :: (condition.words ++ (yes.words ++ no.words))
  | _, .arithmetic op left right => arithmeticTag op :: (left.words ++ right.words)
  | _, .stateTime => ["s"]
  | _, .optionTime => ["t"]
  | _, .connective op count operands => connectiveTag op :: count :: Term.allWords operands
  | _, .not operand => "!" :: operand.words
  | _, .relation op left right => relationTag op :: (left.words ++ right.words)
  | _, .sameElement left right => "c" :: (left.words ++ right.words)
  | _, .reachedTarget => ["t"]
termination_by structural _ t => t

/-- The words of expressions that follow one another. -/
def Term.allWords : List (Term .boolean) → List String
  | [] => []
  | t :: ts => t.words ++ Term.allWords ts
termination_by structural ts => ts

/-- The words of bindings that follow one another. -/
def Assignment.allWords : List Assignment → List String
  | [] => []
  | .mk d name value :: rest => domainTag d :: name :: value.words ++ Assignment.allWords rest
termination_by structural bs => bs

end

mutual

/-- How deep an expression is nested; an expression without parts counts as one level. -/
def Term.depth : {d : Domain} → Term d → Nat
  | _, .literal _ => 1
  | _, .constant _ => 1
  | _, .parameter _ => 1
  | _, .input _ _ arguments => Assignment.allDepth arguments + 1
  | _, .output _ => 1
  | _, .choice condition yes no => max condition.depth (max yes.depth no.depth) + 1
  | _, .arithmetic _ left right => max left.depth right.depth + 1
  | _, .stateTime => 1
  | _, .optionTime => 1
  | _, .connective _ _ operands => Term.allDepth operands + 1
  | _, .not operand => operand.depth + 1
  | _, .relation _ left right => max left.depth right.depth + 1
  | _, .sameElement left right => max left.depth right.depth + 1
  | _, .reachedTarget => 1
termination_by structural _ t => t

/-- How deep the deepest of some expressions is nested. -/
def Term.allDepth : List (Term .boolean) → Nat
  | [] => 0
  | t :: ts => max t.depth (Term.allDepth ts)
termination_by structural ts => ts

/-- How deep the deepest of some bound expressions is nested. -/
def Assignment.allDepth : List Assignment → Nat
  | [] => 0
  | .mk _ _ value :: rest => max value.depth (Assignment.allDepth rest)
termination_by structural bs => bs

end

/-- The name of the bound parameter. -/
def Assignment.name : Assignment → String
  | .mk _ name _ => name

/-- The words of a binding. -/
def Assignment.words : Assignment → List String
  | .mk d name value => domainTag d :: name :: value.words

/-- How deep the bound expression is nested. -/
def Assignment.depth : Assignment → Nat
  | .mk _ _ value => value.depth

theorem Term.allWords_eq (ts : List (Term .boolean)) :
    Term.allWords ts = ts.flatMap Term.words := by
  induction ts with
  | nil => rfl
  | cons t ts ih => simp [Term.allWords, ih]

theorem Assignment.allWords_eq (bs : List Assignment) :
    Assignment.allWords bs = bs.flatMap Assignment.words := by
  induction bs with
  | nil => rfl
  | cons b bs ih => cases b; simp [Assignment.allWords, Assignment.words, ih]

theorem Term.allDepth_le {n : Nat} {ts : List (Term .boolean)} :
    Term.allDepth ts ≤ n ↔ ∀ t ∈ ts, t.depth ≤ n := by
  induction ts with
  | nil => simp [Term.allDepth]
  | cons t ts ih => rw [Term.allDepth, Nat.max_le, ih, List.forall_mem_cons]

theorem Assignment.allDepth_le {n : Nat} {bs : List Assignment} :
    Assignment.allDepth bs ≤ n ↔ ∀ b ∈ bs, b.depth ≤ n := by
  induction bs with
  | nil => simp [Assignment.allDepth]
  | cons b bs ih =>
    cases b
    rw [Assignment.allDepth, Nat.max_le, ih, List.forall_mem_cons, Assignment.depth]

theorem Term.depth_pos {d : Domain} (t : Term d) : 0 < t.depth := by
  cases t <;> simp [Term.depth]

/-! ### States -/

/-- A decision tree, as it is written: a plain binary tree of conditions. -/
inductive Tree where
  | goto (state : String)
  | branch (condition : Term .boolean) (yes no : Tree)

/-- The words of a decision tree. -/
def Tree.words : Tree → List String
  | goto state => ["t", state]
  | branch condition yes no => "i" :: (condition.words ++ (yes.words ++ no.words))

/-- How deep a decision tree is nested, its conditions included. -/
def Tree.depth : Tree → Nat
  | goto _ => 1
  | branch condition yes no => max condition.depth (max yes.depth no.depth) + 1

/-- An action, as it is written. -/
inductive Deed where
  | activate (name count : String) (arguments : List Assignment)
  | behave (name count : String) (arguments : List Assignment)
  | assign (domain : Domain) (name : String) (value : Term domain)

/-- The words of an action. -/
def Deed.words : Deed → List String
  | activate name count arguments => "o" :: name :: count :: arguments.flatMap Assignment.words
  | behave name count arguments => "a" :: name :: count :: arguments.flatMap Assignment.words
  | assign d name value => domainTag d :: name :: value.words

/-- How deep the expressions of an action are nested. -/
def Deed.depth : Deed → Nat
  | activate _ _ arguments => Assignment.allDepth arguments
  | behave _ _ arguments => Assignment.allDepth arguments
  | assign _ _ value => value.depth

/-- A state, as it is written. -/
structure State where
  name : String
  flag : String
  count : String
  deeds : List Deed
  decision : Tree

/-- The words of a state. -/
def State.words (s : State) : List String :=
  s.name :: s.flag :: s.count :: (s.deeds.flatMap Deed.words ++ s.decision.words)

/-! ### Options and agents -/

/-- The declaration of a formal parameter. -/
inductive Declaration where
  | decimal (name : String)
  | boolean (name : String)
  | enumerated (enumeration name : String)

namespace Declaration

/-- The words of a declaration. -/
def words : Declaration → List String
  | decimal name => ["d", name]
  | boolean name => ["b", name]
  | enumerated enumeration name => ["e", enumeration, name]

/-- The domain of the parameter. -/
def domain : Declaration → Domain
  | decimal _ => .decimal
  | boolean _ => .boolean
  | enumerated _ _ => .enumerated

/-- The name of the parameter. -/
def name : Declaration → String
  | decimal name => name
  | boolean name => name
  | enumerated _ name => name

end Declaration

/-- The header of an option: its name and its formal parameters. -/
structure Heading where
  name : String
  count : String
  parameters : List Declaration

/-- The words of a header. -/
def Heading.words (h : Heading) : List String :=
  h.name :: h.count :: h.parameters.flatMap Declaration.words

/-- The body of an option. -/
structure Body where
  name : String
  count : String
  /-- The names of the states, in the order of declaration. -/
  names : List String
  initial : String
  states : List State

/-- The words of a body. -/
def Body.words (b : Body) : List String :=
  b.name :: b.count :: (b.names ++ b.initial :: b.states.flatMap State.words)

/-- An agent and its root option. -/
structure Agent where
  name : String
  root : String

/-- The words of an agent. -/
def Agent.words (a : Agent) : List String := [a.name, a.root]

/-- A whole text of intermediate code. -/
structure Sentence where
  count : String
  headings : List Heading
  bodies : List Body
  agentCount : String
  agents : List Agent

/-- The words of a sentence. -/
def Sentence.words (s : Sentence) : List String :=
  s.count :: (s.headings.flatMap Heading.words ++ (s.bodies.flatMap Body.words ++
    s.agentCount :: s.agents.flatMap Agent.words))

/-! ### Nesting -/

/-- The expressions and the decision tree of a state are nested at most `n` levels deep. -/
def State.NestedAtMost (n : Nat) (s : State) : Prop :=
  (∀ deed ∈ s.deeds, deed.depth ≤ n) ∧ s.decision.depth ≤ n

/-- All states of a body are nested at most `n` levels deep. -/
def Body.NestedAtMost (n : Nat) (b : Body) : Prop := ∀ s ∈ b.states, s.NestedAtMost n

/-- No expression and no decision tree of a sentence is nested deeper than `n` levels. -/
def Sentence.NestedAtMost (n : Nat) (s : Sentence) : Prop := ∀ b ∈ s.bodies, b.NestedAtMost n

end Grammar

end BehaviorEngine
