import BehaviorEngine.Domain

/-!
The kinds of names and the places of tags that messages speak of.
-/

namespace BehaviorEngine

/-- What a name is the name of. -/
inductive NameKind where
  | inputSymbol (domain : Domain)
  | outputSymbol (domain : Domain)
  /-- A formal parameter of an option, as its body refers to it. -/
  | optionParameter (domain : Domain)
  /-- A formal parameter, as a call site binds it. -/
  | parameter (domain : Domain)
  | enumeration
  | option
  | state
  | basicBehavior
  | agent
  deriving DecidableEq, Repr

/-- The words for the kind in messages. -/
def NameKind.text : NameKind → String
  | .inputSymbol d => s!"{d.name} input symbol"
  | .outputSymbol d => s!"{d.name} output symbol"
  | .optionParameter d => s!"{d.name} option parameter"
  | .parameter d => s!"{d.name} parameter"
  | .enumeration => "enumeration"
  | .option => "option"
  | .state => "state"
  | .basicBehavior => "basic behavior"
  | .agent => "agent"

/-- Where a one-letter tag was expected. -/
inductive TagPosition where
  | expression (domain : Domain)
  | statement
  | action
  | parameterDeclaration
  | parameterBinding
  deriving DecidableEq, Repr

/-- The words for the place in messages. -/
def TagPosition.text : TagPosition → String
  | .expression d => s!"{d.name} expression"
  | .statement => "statement"
  | .action => "action"
  | .parameterDeclaration => "parameter declaration"
  | .parameterBinding => "parameter binding"

end BehaviorEngine
