import BehaviorEngine.Registry
import BehaviorEngine.Error.Registration

/-!
Formal parameters of options, input symbols and basic behaviors. Parameters of different domains
have separate names. A parameter of a symbol or behavior has a cell of the host as its slot; the
values of an option's parameters belong to the engine.
-/

namespace BehaviorEngine

/-- A formal parameter: what bound values have to agree with, and where they are written. -/
structure Parameter (slot : Type) (d : Domain) where
  typing : d.Typing
  slot : slot

/-- The formal parameters of each domain, in the order of declaration. -/
abbrev Parameters (slot : Type) := PerDomain fun d => Registry (Parameter slot d)

namespace Parameters

variable {slot : Type}

/-- No parameters. -/
def none : Parameters slot := PerDomain.ofFn fun _ => Registry.empty

/-- Number of parameters of all domains. -/
def size (p : Parameters slot) : Nat := p.decimal.size + p.boolean.size + p.enumerated.size

/-- Declares a parameter, unless its domain has one of that name. -/
def declare (p : Parameters slot) (d : Domain) (name : String) (x : Parameter slot d) :
    Except DuplicateName (Parameters slot) :=
  ((p.get d).append name x).map (p.set d)

/-- Declares a parameter of a symbol or behavior. -/
def register (p : Parameters slot) (owner : String) (d : Domain) (name : String)
    (x : Parameter slot d) : Except RegistrationError (Parameters slot) :=
  (p.declare d name x).mapError fun _ => .duplicateParameter (.parameter d) owner name

end Parameters

end BehaviorEngine
