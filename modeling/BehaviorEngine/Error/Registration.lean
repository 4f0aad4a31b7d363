import BehaviorEngine.Error.Name

/-!
Why the host cannot register a symbol, a parameter, an element or a behavior.
-/

namespace BehaviorEngine

/-- A refused registration. -/
inductive RegistrationError where
  | duplicate (kind : NameKind) (name : String)
  | unknown (kind : NameKind) (name : String)
  | duplicateElement (enumeration element : String)
  | duplicateParameter (kind : NameKind) (owner parameter : String)
  deriving DecidableEq, Repr

/-- The text of a refused registration. -/
def RegistrationError.message : RegistrationError → String
  | duplicate kind name => s!"{kind.text} `{name}` is already registered"
  | unknown kind name => s!"{kind.text} `{name}` is not registered"
  | duplicateElement enumeration element =>
    s!"element `{element}` of enumeration `{enumeration}` is already registered"
  | duplicateParameter kind owner parameter =>
    s!"{kind.text} `{parameter}` of `{owner}` is already registered"

end BehaviorEngine
