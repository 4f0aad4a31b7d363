import BehaviorEngine.Host.Environment
import BehaviorEngine.Stateful

/-!
Registering the host's enumerations, symbols and behaviors. A registration that is refused reports
why; what it did before it was refused stays done. An enumeration is created by the first
registration that names it.
-/

namespace BehaviorEngine

/-- A registration: it changes what is registered and may be refused. -/
abbrev Registering (σ : Type) (α : Type) := Stateful (Draft σ) RegistrationError α

namespace Registering

variable {σ : Type} {α β : Type}

/-- Refuses the registration. -/
def refuse (e : RegistrationError) : Registering σ α := throw e

/-- Adds an entry to a part of the draft under a new name. -/
def append (kind : NameKind) (r : Registry β) (name : String) (x : β) :
    Registering σ (Registry β) :=
  match r.append name x with
  | .ok s => pure s
  | .error _ => refuse (.duplicate kind name)

/-! ### Enumerations -/

/-- The enumeration of a name, created without elements if there is none. -/
def enumeration (name : String) : Registering σ EnumId := do
  let e ← get
  let (id, enumerations) := e.symbols.enumerations.positionOrInsert name fun _ => Registry.empty
  set { e with symbols := { e.symbols with enumerations } }
  return id

/-- Registers an element of an enumeration. -/
def element (enumerationName name : String) (value : Int32) : Registering σ Unit := do
  let id ← enumeration enumerationName
  let e ← get
  match e.symbols.enumerations.at? id with
  | none => refuse (.unknown .enumeration enumerationName)
  | some old =>
    match old.append name value with
    | .ok elements =>
      let enumerations := e.symbols.enumerations.modifyAt id fun _ => elements
      set { e with symbols := { e.symbols with enumerations } }
    | .error _ => refuse (.duplicateElement enumerationName name)

/-- What values of a symbol or parameter have to agree with: for an enumerated one, the
enumeration of the given name. -/
def typing (enumerationName : String) : (d : Domain) → Registering σ d.Typing
  | .decimal => pure ()
  | .boolean => pure ()
  | .enumerated => enumeration enumerationName

/-! ### Symbols -/

/-- Registers an input symbol; `enumerationName` is of no account for other domains than the
enumerated one. -/
def input (d : Domain) (name : String) (enumerationName : String) (binding : InputBinding σ d) :
    Registering σ Unit := do
  if ((← get).symbols.inputs.get d).contains name then refuse (.duplicate (.inputSymbol d) name)
  let typing ← typing enumerationName d
  let e ← get
  let symbol : InputSymbol σ d := ⟨typing, binding, Parameters.none, none⟩
  let inputs ← append (.inputSymbol d) (e.symbols.inputs.get d) name symbol
  set { e with symbols := { e.symbols with inputs := e.symbols.inputs.set d inputs } }

/-- Registers an output symbol; `enumerationName` is of no account for other domains than the
enumerated one. -/
def output (d : Domain) (name : String) (enumerationName : String) (binding : OutputBinding σ d) :
    Registering σ Unit := do
  if ((← get).symbols.outputs.get d).contains name then refuse (.duplicate (.outputSymbol d) name)
  let typing ← typing enumerationName d
  let e ← get
  let symbol : OutputSymbol σ d := ⟨typing, binding⟩
  let outputs ← append (.outputSymbol d) (e.symbols.outputs.get d) name symbol
  set { e with symbols := { e.symbols with outputs := e.symbols.outputs.set d outputs } }

/-- The input symbol of a name, with its position. -/
def findInput (d : Domain) (symbol : String) : Registering σ (Nat × InputSymbol σ d) := do
  match ((← get).symbols.inputs.get d).find? symbol with
  | some found => pure found
  | none => refuse (.unknown (.inputSymbol d) symbol)

/-- Replaces the input symbol at a position. -/
def setInput (d : Domain) (i : Nat) (symbol : InputSymbol σ d) : Registering σ Unit :=
  modify fun e =>
    let inputs := e.symbols.inputs.modify d fun r => r.modifyAt i fun _ => symbol
    { e with symbols := { e.symbols with inputs } }

/-- Registers a parameter of domain `p` of the input symbol `symbol` of domain `d`. -/
def inputParameter (d : Domain) (symbol : String) (p : Domain)
    (name enumerationName slot : String) : Registering σ Unit := do
  let _ ← findInput d symbol
  let typing ← typing enumerationName p
  let (i, s) ← findInput d symbol
  match s.parameters.register symbol p name ⟨typing, slot⟩ with
  | .ok parameters => setInput d i { s with parameters }
  | .error e => refuse e

/-- Registers the function that is told when a call site binds other values to the parameters of
an input symbol; a later one takes the place of an earlier one. -/
def inputChanged (d : Domain) (symbol : String) (call : World σ → World σ) :
    Registering σ Unit := do
  let (i, s) ← findInput d symbol
  setInput d i { s with parametersChanged := some call }

/-! ### Basic behaviors -/

/-- Registers a basic behavior. -/
def behavior (name : String) (run parametersChanged : World σ → World σ) : Registering σ Unit := do
  let e ← get
  let behaviors ← append .basicBehavior e.behaviors name ⟨Parameters.none, run, parametersChanged⟩
  set { e with behaviors }

/-- The basic behavior of a name, with its position. -/
def findBehavior (name : String) : Registering σ (Nat × BasicBehavior σ) := do
  match (← get).behaviors.find? name with
  | some found => pure found
  | none => refuse (.unknown .basicBehavior name)

/-- Registers a parameter of domain `p` of a basic behavior. -/
def behaviorParameter (owner : String) (p : Domain) (name enumerationName slot : String) :
    Registering σ Unit := do
  let _ ← findBehavior owner
  let typing ← typing enumerationName p
  let (i, b) ← findBehavior owner
  match b.parameters.register owner p name ⟨typing, slot⟩ with
  | .ok parameters =>
    modify fun e => { e with behaviors := e.behaviors.modifyAt i fun _ => { b with parameters } }
  | .error e => refuse e

end Registering

end BehaviorEngine
