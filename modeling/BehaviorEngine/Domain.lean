import BehaviorEngine.Decimal.Basic

/-!
The three domains of values that symbols, parameters and expressions range over, and families
with one member for each domain. A value is a decimal, a truth value, or the integer behind an
element of an enumeration; an enumerated value is checked against the enumeration it belongs to,
which is the typing of its domain.
-/

namespace BehaviorEngine

/-- Position of an enumeration in the order of registration. -/
abbrev EnumId := Nat

/-- The kind of value that a symbol, a parameter or an expression has. -/
inductive Domain where
  | decimal
  | boolean
  | enumerated
  deriving DecidableEq, Repr

namespace Domain

/-- The values of a domain. -/
@[reducible] def Value : Domain → Type
  | .decimal => Decimal
  | .boolean => Bool
  | .enumerated => Int32

/-- What a use has to agree on besides the domain: for enumerated values, the enumeration. -/
@[reducible] def Typing : Domain → Type
  | .decimal => Unit
  | .boolean => Unit
  | .enumerated => EnumId

instance : (d : Domain) → DecidableEq d.Typing
  | .decimal => inferInstance
  | .boolean => inferInstance
  | .enumerated => inferInstance

instance : (d : Domain) → DecidableEq d.Value
  | .decimal => inferInstance
  | .boolean => inferInstance
  | .enumerated => inferInstance

instance : (d : Domain) → Repr d.Value
  | .decimal => inferInstance
  | .boolean => inferInstance
  | .enumerated => inferInstance

/-- The value that a variable holds before anything is stored in it. -/
def initial : (d : Domain) → d.Value
  | .decimal => (0 : Decimal)
  | .boolean => false
  | .enumerated => (0 : Int32)

instance (d : Domain) : Inhabited d.Value := ⟨d.initial⟩

/-- The word for the domain in messages. -/
def name : Domain → String
  | .decimal => "decimal"
  | .boolean => "boolean"
  | .enumerated => "enumerated"

/-- The domain that a one-letter tag stands for. -/
def ofTag? : Char → Option Domain
  | 'd' => some .decimal
  | 'b' => some .boolean
  | 'e' => some .enumerated
  | _ => none

/-- The domains in the order in which parameters are listed, bound and checked. -/
def all : List Domain := [.decimal, .boolean, .enumerated]

theorem mem_all (d : Domain) : d ∈ all := by cases d <;> decide

end Domain

/-- A family with one member for each domain. -/
@[ext]
structure PerDomain (α : Domain → Type) where
  decimal : α .decimal
  boolean : α .boolean
  enumerated : α .enumerated

namespace PerDomain

variable {α β : Domain → Type}

/-- The member of a domain. -/
def get (p : PerDomain α) : (d : Domain) → α d
  | .decimal => p.decimal
  | .boolean => p.boolean
  | .enumerated => p.enumerated

/-- The family with the given members. -/
def ofFn (f : (d : Domain) → α d) : PerDomain α := ⟨f .decimal, f .boolean, f .enumerated⟩

/-- The family with the member of one domain replaced. -/
def set (p : PerDomain α) : (d : Domain) → α d → PerDomain α
  | .decimal, x => { p with decimal := x }
  | .boolean, x => { p with boolean := x }
  | .enumerated, x => { p with enumerated := x }

/-- The family with the member of one domain changed by a function. -/
def modify (p : PerDomain α) (d : Domain) (f : α d → α d) : PerDomain α := p.set d (f (p.get d))

/-- The family of the images of the members. -/
def map (f : (d : Domain) → α d → β d) (p : PerDomain α) : PerDomain β :=
  ofFn fun d => f d (p.get d)

@[simp] theorem get_ofFn (f : (d : Domain) → α d) (d : Domain) : (ofFn f).get d = f d := by
  cases d <;> rfl

@[simp] theorem get_map (f : (d : Domain) → α d → β d) (p : PerDomain α) (d : Domain) :
    (p.map f).get d = f d (p.get d) := by simp [map]

@[simp] theorem get_set (p : PerDomain α) (d : Domain) (x : α d) : (p.set d x).get d = x := by
  cases d <;> rfl

theorem get_set_of_ne (p : PerDomain α) {d e : Domain} (x : α d) (h : e ≠ d) :
    (p.set d x).get e = p.get e := by
  revert h; cases d <;> cases e <;> simp [get, set]

@[simp] theorem get_modify (p : PerDomain α) (d : Domain) (f : α d → α d) :
    (p.modify d f).get d = f (p.get d) := by simp [modify]

theorem get_modify_of_ne (p : PerDomain α) {d e : Domain} (f : α d → α d) (h : e ≠ d) :
    (p.modify d f).get e = p.get e := get_set_of_ne p _ h

theorem ext_get {p q : PerDomain α} (h : ∀ d, p.get d = q.get d) : p = q :=
  PerDomain.ext (h .decimal) (h .boolean) (h .enumerated)

end PerDomain

end BehaviorEngine
