import BehaviorEngine.EnvironmentFile.Declaration
import BehaviorEngine.Host.Soundness

/-!
Registration of what an environment file declares. Every symbol and every parameter has a cell of
its own; an input symbol's cell holds the declared constant. Basic behaviors do nothing.
-/

namespace BehaviorEngine

namespace EnvironmentFile

/-- The cell of an input symbol. Names are words, so the blanks keep the cells apart. -/
def inputCell (name : String) : String := s!"input {name}"

/-- The cell of an output symbol. -/
def outputCell (name : String) : String := s!"output {name}"

/-- The cell of a parameter of an input symbol of a domain. -/
def inputSlot (d : Domain) (symbol name : String) : String :=
  s!"input parameter {d.name} {symbol} {name}"

/-- The cell of a parameter of a basic behavior. -/
def behaviorSlot (behavior name : String) : String := s!"behavior parameter {behavior} {name}"

/-- The domain of the input symbol that a parameter line names. -/
def inputDomain {σ : Type} (symbols : Symbols σ) (symbol : String) : Domain :=
  if (symbols.inputs.get .boolean).contains symbol then .boolean
  else if (symbols.inputs.get .enumerated).contains symbol then .enumerated
  else .decimal

/-- Registers a declaration. -/
def Declaration.register {σ : Type} : Declaration → Registering σ Unit
  | .element enumeration name value => Registering.element enumeration name value
  | .decimalInput name _ => Registering.input .decimal name "" (.cell (inputCell name))
  | .booleanInput name _ => Registering.input .boolean name "" (.cell (inputCell name))
  | .enumeratedInput name enumeration _ =>
    Registering.input .enumerated name enumeration (.cell (inputCell name))
  | .decimalOutput name => Registering.output .decimal name "" (.cell (outputCell name))
  | .booleanOutput name => Registering.output .boolean name "" (.cell (outputCell name))
  | .enumeratedOutput name enumeration =>
    Registering.output .enumerated name enumeration (.cell (outputCell name))
  | .inputParameter symbol p => do
    let d := inputDomain (← get).symbols symbol
    Registering.inputParameter d symbol p.domain p.name (p.enumeration.getD "")
      (inputSlot d symbol p.name)
  | .behavior name => Registering.behavior name id id
  | .behaviorParameter owner p =>
    Registering.behaviorParameter owner p.domain p.name (p.enumeration.getD "")
      (behaviorSlot owner p.name)

theorem Declaration.register_keeps {σ : Type} :
    (d : Declaration) → (d.register : Registering σ Unit).KeepsSound
  | .element enumeration name value => Registering.element_keeps enumeration name value
  | .decimalInput name _ => Registering.input_keeps .decimal name "" _
  | .booleanInput name _ => Registering.input_keeps .boolean name "" _
  | .enumeratedInput name enumeration _ => Registering.input_keeps .enumerated name enumeration _
  | .decimalOutput name => Registering.output_keeps .decimal name "" _
  | .booleanOutput name => Registering.output_keeps .boolean name "" _
  | .enumeratedOutput name enumeration => Registering.output_keeps .enumerated name enumeration _
  | .inputParameter symbol p => .get_bind fun _ _ =>
    fun e he _ => Registering.inputParameter_keeps _ symbol p.domain p.name _ _ e he trivial
  | .behavior name => Registering.behavior_keeps name id id
  | .behaviorParameter owner p =>
    Registering.behaviorParameter_keeps owner p.domain p.name _ _

/-- Stores the constant that a declaration gives an input symbol. -/
def Declaration.store {σ : Type} (w : World σ) : Declaration → World σ
  | .decimalInput name value => w.write .decimal (inputCell name) value
  | .booleanInput name value => w.write .boolean (inputCell name) value
  | .enumeratedInput name _ value => w.write .enumerated (inputCell name) value
  | _ => w

/-- Registers declarations in order, up to the first one that is refused. -/
def register {σ : Type} (ds : List Declaration) : Registering σ Unit :=
  ds.forM Declaration.register

/-- The environment and the world that declarations make, or the first refusal. -/
def setUp {σ : Type} (ds : List Declaration) (host : σ) :
    Except RegistrationError (Environment σ × World σ) :=
  match (register ds).build (Registering.forM_keeps Declaration.register_keeps ds)
      Environment.empty with
  | (.ok (), e) => .ok (e, ds.foldl Declaration.store ⟨Cells.empty, host⟩)
  | (.error error, _) => .error error

end EnvironmentFile

end BehaviorEngine
