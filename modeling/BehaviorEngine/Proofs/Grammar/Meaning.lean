import Mathlib.Data.List.Forall2
import BehaviorEngine.Proofs.Grammar.Tree
import BehaviorEngine.Proofs.Host.Enumerations

/-!
What the expressions of the grammar stand for. The relations of this module hold between an
expression or a call site as it is written and the one of a graph that it denotes; their premises
are the context conditions of the grammar. A name resolves to the position at which it stands among
the names of its kind and domain.
-/

namespace BehaviorEngine

/-- The parameter that a binding is for. -/
def Binding.key (b : Binding) : Domain × Nat := (b.domain, b.index)

namespace Grammar

/-- What the names inside the body of an option can stand for. -/
structure Context (σ : Type) where
  symbols : Symbols σ
  behaviors : Registry (BasicBehavior σ)
  /-- All options with their formal parameters. -/
  options : Registry (Parameters Unit)
  /-- The formal parameters of the option itself. -/
  parameters : Parameters Unit
  /-- The names of the states of the option itself. -/
  states : List String

/-- What is found is what is expected, if anything is expected. -/
def Agrees {d : Domain} (expected : Option d.Typing) (found : d.Typing) : Prop :=
  ∀ t ∈ expected, t = found

/-- The bindings are for different parameters, and for every parameter of the target. -/
structure BindsEachOnce {slot : Type} (target : Parameters slot) (bindings : List Binding) :
    Prop where
  nodup : (bindings.map Binding.key).Nodup
  complete : ∀ d i, i < (target.get d).size → (d, i) ∈ bindings.map Binding.key

variable {σ : Type}

/-! ### Expressions -/

mutual

/-- **What an expression denotes**, where an expression of the typing `expected` is asked for. -/
inductive Term.Denotes (c : Context σ) :
    {d : Domain} → (expected : Option d.Typing) → Term d → Expr d → Prop
  | decimal {expected : Option Unit} {value : String} {x : Decimal}
      (hx : readDecimal? value = some x) (hf : x.isFinite = true) :
      Term.Denotes c (d := .decimal) expected (.literal value) (.literal () x)
  | constant {expected : Option Unit} {value : String} {x : Decimal}
      (hx : readDecimal? value = some x) (hf : x.isFinite = true) :
      Term.Denotes c (d := .decimal) expected (.constant value) (.literal () x)
  | yes {expected : Option Unit} :
      Term.Denotes c (d := .boolean) expected (.literal "true") (.literal () true)
  | no {expected : Option Unit} :
      Term.Denotes c (d := .boolean) expected (.literal "false") (.literal () false)
  | element {id : EnumId} {value : String} {x : Int32}
      (hx : c.symbols.elementValue? id value = some x) :
      Term.Denotes c (d := .enumerated) (some id) (.literal value) (.literal id x)
  | parameter {d : Domain} {expected : Option d.Typing} {name : String} {i : Nat}
      {p : Parameter Unit d} (hp : (c.parameters.get d).entries[i]? = some (name, p))
      (ht : Agrees expected p.typing) :
      Term.Denotes c expected (.parameter name) (.parameter p.typing i)
  | input {d : Domain} {expected : Option d.Typing} {name count : String} {i : Nat}
      {s : InputSymbol σ d} {arguments : List Assignment} {bindings : List Binding}
      (hs : (c.symbols.inputs.get d).entries[i]? = some (name, s))
      (ht : Agrees expected s.typing) (hc : readCount? count = some arguments.length)
      (ha : Assignment.AllDenote c s.parameters arguments bindings)
      (hb : BindsEachOnce s.parameters bindings) :
      Term.Denotes c expected (.input name count arguments)
        (.input s.typing i (Binding.arrange bindings))
  | output {d : Domain} {expected : Option d.Typing} {name : String} {i : Nat}
      {s : OutputSymbol σ d} (hs : (c.symbols.outputs.get d).entries[i]? = some (name, s))
      (ht : Agrees expected s.typing) :
      Term.Denotes c expected (.output name) (.output s.typing i)
  | choice {d : Domain} {expected : Option d.Typing} {condition : Term .boolean} {yes no : Term d}
      {condition' : Expr .boolean} {yes' no' : Expr d}
      (hc : Term.Denotes c none condition condition') (hy : Term.Denotes c expected yes yes')
      (hn : Term.Denotes c (some yes'.typing) no no') :
      Term.Denotes c expected (.choice condition yes no) (.choice condition' yes' no')
  | arithmetic {expected : Option Unit} {op : ArithmeticOp} {left right : Term .decimal}
      {left' right' : Expr .decimal} (hl : Term.Denotes c none left left')
      (hr : Term.Denotes c none right right') :
      Term.Denotes c (d := .decimal) expected (.arithmetic op left right)
        (.arithmetic op left' right')
  | stateTime {expected : Option Unit} :
      Term.Denotes c (d := .decimal) expected .stateTime .stateTime
  | optionTime {expected : Option Unit} :
      Term.Denotes c (d := .decimal) expected .optionTime .optionTime
  | connective {expected : Option Unit} {op : Connective} {count : String}
      {operands : List (Term .boolean)} {operands' : List (Expr .boolean)}
      (hc : readCount? count = some operands.length) (h0 : operands ≠ [])
      (ho : Term.AllDenote c operands operands') :
      Term.Denotes c (d := .boolean) expected (.connective op count operands)
        (.connective op operands')
  | not {expected : Option Unit} {operand : Term .boolean} {operand' : Expr .boolean}
      (ho : Term.Denotes c none operand operand') :
      Term.Denotes c (d := .boolean) expected (.not operand) (.not operand')
  | relation {expected : Option Unit} {op : RelationalOp} {left right : Term .decimal}
      {left' right' : Expr .decimal} (hl : Term.Denotes c none left left')
      (hr : Term.Denotes c none right right') :
      Term.Denotes c (d := .boolean) expected (.relation op left right)
        (.relation op left' right')
  /-- Both sides belong to the enumeration that the left side determines. -/
  | sameElement {expected : Option Unit} {left right : Term .enumerated}
      {left' right' : Expr .enumerated} (hl : Term.Denotes c none left left')
      (hr : Term.Denotes c (some left'.typing) right right') :
      Term.Denotes c (d := .boolean) expected (.sameElement left right) (.sameElement left' right')
  | reachedTarget {expected : Option Unit} :
      Term.Denotes c (d := .boolean) expected .reachedTarget .reachedTarget

/-- What operands denote, one by one. -/
inductive Term.AllDenote (c : Context σ) : List (Term .boolean) → List (Expr .boolean) → Prop
  | nil : Term.AllDenote c [] []
  | cons {t : Term .boolean} {e : Expr .boolean} {ts : List (Term .boolean)}
      {es : List (Expr .boolean)} (h : Term.Denotes c none t e) (hs : Term.AllDenote c ts es) :
      Term.AllDenote c (t :: ts) (e :: es)

/-- What the bindings of a call site denote, one by one: each names a parameter of the target and
binds an expression of its typing to it. -/
inductive Assignment.AllDenote (c : Context σ) :
    {slot : Type} → (target : Parameters slot) → List Assignment → List Binding → Prop
  | nil {slot : Type} {target : Parameters slot} : Assignment.AllDenote c target [] []
  | cons {slot : Type} {target : Parameters slot} {d : Domain} {name : String} {value : Term d}
      {i : Nat} {p : Parameter slot d} {e : Expr d} {as : List Assignment} {bs : List Binding}
      (hp : (target.get d).entries[i]? = some (name, p))
      (hv : Term.Denotes c (some p.typing) value e)
      (hs : Assignment.AllDenote c target as bs) :
      Assignment.AllDenote c target (.mk d name value :: as) (.mk d i e :: bs)

end

/-- What one binding of a call site denotes. -/
inductive Assignment.Denotes (c : Context σ) {slot : Type} (target : Parameters slot) :
    Assignment → Binding → Prop
  | mk {d : Domain} {name : String} {value : Term d} {i : Nat} {p : Parameter slot d} {e : Expr d}
      (hp : (target.get d).entries[i]? = some (name, p))
      (hv : value.Denotes c (some p.typing) e) :
      Assignment.Denotes c target (.mk d name value) (.mk d i e)

theorem Term.allDenote_iff {c : Context σ} {ts : List (Term .boolean)}
    {es : List (Expr .boolean)} :
    Term.AllDenote c ts es ↔ List.Forall₂ (Term.Denotes c none) ts es := by
  constructor
  · intro h
    induction ts generalizing es with
    | nil => cases h; exact .nil
    | cons t ts ih => cases h with | cons h hs => exact .cons h (ih hs)
  · intro h
    induction h with
    | nil => exact .nil
    | cons h _ ih => exact .cons h ih

theorem Assignment.allDenote_iff {c : Context σ} {slot : Type} {target : Parameters slot}
    {as : List Assignment} {bs : List Binding} :
    Assignment.AllDenote c target as bs ↔ List.Forall₂ (Assignment.Denotes c target) as bs := by
  constructor
  · intro h
    induction as generalizing bs with
    | nil => cases h; exact .nil
    | cons a as ih => cases h with | cons hp hv hs => exact .cons (.mk hp hv) (ih hs)
  · intro h
    induction h with
    | nil => exact .nil
    | cons h _ ih => cases h with | mk hp hv => exact .cons hp hv ih

/-- What a call site denotes: as many bindings as its count tells, one for each parameter. -/
structure Call (c : Context σ) {slot : Type} (target : Parameters slot) (count : String)
    (arguments : List Assignment) (bindings : List Binding) : Prop where
  count : readCount? count = some arguments.length
  arguments : Assignment.AllDenote c target arguments bindings
  once : BindsEachOnce target bindings

end Grammar

end BehaviorEngine
