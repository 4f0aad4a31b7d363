import BehaviorEngine.Decimal.Shortest
import BehaviorEngine.Host.Soundness

/-!
A scripted host: symbols and behaviors whose functions follow a fixed pattern over named cells and
write down how they are called. It shows from outside what an engine asks of its host, and when.
-/

namespace BehaviorEngine

namespace Scripted

/-- A parameter whose slot a function of the host reads. -/
structure Slot where
  name : String
  domain : Domain
  cell : String
  deriving DecidableEq, Repr

/-- What the host keeps to itself. -/
structure Journal where
  /-- The parameters of input symbols, in the order of registration. -/
  inputSlots : PerDomain fun _ => Registry (List Slot)
  /-- The parameters of basic behaviors, in the order of registration. -/
  behaviorSlots : Registry (List Slot)
  /-- What was written down, in order. -/
  lines : List String
  /-- Whether calls are written down. -/
  recording : Bool

/-- Nothing is registered and nothing written down. -/
def Journal.empty : Journal where
  inputSlots := PerDomain.ofFn fun _ => Registry.empty
  behaviorSlots := Registry.empty
  lines := []
  recording := false

/-- The world of a scripted host. -/
abbrev Stage := World Journal

/-- The stage before anything is registered. -/
def Stage.empty : Stage := ⟨Cells.empty, Journal.empty⟩

/-- Writes a line down. -/
def note (line : String) (w : Stage) : Stage :=
  if w.host.recording then { w with host := { w.host with lines := w.host.lines ++ [line] } } else w

/-- The letter of a domain. -/
def letter : Domain → String
  | .decimal => "d"
  | .boolean => "b"
  | .enumerated => "e"

/-- The text of a value; an enumerated value is written as its number. -/
def valueText : (d : Domain) → d.Value → String
  | .decimal, x => (x : Decimal).text
  | .boolean, b => if b then "true" else "false"
  | .enumerated, v => toString v.toInt

/-! ### Getters -/

/-- A decimal with the value of a slot added; a truth value counts as 1 if it holds, else as 0. -/
def addDecimal (x : Decimal) (w : Stage) (s : Slot) : Decimal :=
  match s.domain with
  | .decimal => x + w.read .decimal s.cell
  | .boolean => x + if w.read .boolean s.cell then 1 else 0
  | .enumerated => x + .ofInt (w.read .enumerated s.cell).toInt

/-- A truth value, turned over if the slot is positive, holds, or is not zero. -/
def turnOver (b : Bool) (w : Stage) (s : Slot) : Bool :=
  match s.domain with
  | .decimal => b != Decimal.isBelow 0 (w.read .decimal s.cell)
  | .boolean => b != w.read .boolean s.cell
  | .enumerated => b != (w.read .enumerated s.cell != 0)

/-- A 32-bit number with the value of a slot added; decimals are cut off toward zero. -/
def addElement (v : Int32) (w : Stage) (s : Slot) : Int32 :=
  match s.domain with
  | .decimal =>
    v + Int32.ofInt ((w.read .decimal s.cell).truncate Int32.minValue.toInt Int32.maxValue.toInt)
  | .boolean => if w.read .boolean s.cell then v + 1 else v
  | .enumerated => v + w.read .enumerated s.cell

/-- A value with the values of slots folded in. -/
def fold (w : Stage) (slots : List Slot) : (d : Domain) → d.Value → d.Value
  | .decimal, x => slots.foldl (fun x s => addDecimal x w s) x
  | .boolean, b => slots.foldl (fun b s => turnOver b w s) b
  | .enumerated, v => slots.foldl (fun v s => addElement v w s) v

/-- The slots of an input symbol. -/
def inputSlots (w : Stage) (d : Domain) (symbol : String) : List Slot :=
  ((w.host.inputSlots.get d).get? symbol).getD []

/-- The getter of an input symbol: its cell with its slots folded in. -/
def getter (d : Domain) (name cell : String) (w : Stage) : d.Value × Stage :=
  let x := fold w (inputSlots w d name) d (w.read d cell)
  (x, note s!"get {letter d} {name} = {valueText d x}" w)

/-! ### Accessors -/

/-- What is fetched where a value is stored: twice a decimal, the opposite of a truth value, and
the number after an enumerated value. -/
def fetched : (d : Domain) → d.Value → d.Value
  | .decimal, x => (x : Decimal) * 2
  | .boolean, b => !b
  | .enumerated, v => (v : Int32) + 1

/-- Stores the value of an output symbol. -/
def store (d : Domain) (name cell : String) (x : d.Value) (w : Stage) : Stage :=
  (note s!"set {letter d} {name} = {valueText d x}" w).write d cell x

/-- Fetches the value of an output symbol. -/
def fetch (d : Domain) (name cell : String) (w : Stage) : d.Value × Stage :=
  let x := fetched d (w.read d cell)
  (x, note s!"read {letter d} {name} = {valueText d x}" w)

/-! ### Behaviors -/

/-- The name and the value of a slot. -/
def slotText (w : Stage) (s : Slot) : String :=
  s!" {s.name}={valueText s.domain (w.read s.domain s.cell)}"

/-- Runs a behavior, which adds 1 to the decimal cell `bump`, if there is one. -/
def runBehavior (name : String) (bump : Option String) (w : Stage) : Stage :=
  let slots := (w.host.behaviorSlots.get? name).getD []
  let w := note (s!"run {name}" ++ String.join (slots.map (slotText w))) w
  match bump with
  | some cell => w.write .decimal cell (w.read .decimal cell + 1)
  | none => w

/-! ### Registrations -/

/-- A line of the script that registers something. Cells take the given values before anything
else happens. -/
inductive Registration where
  | element (enumeration name : String) (value : Int32)
  | input (d : Domain) (name cell : String) (value : Option d.Value) (enumeration : String)
    (hasGetter : Bool)
  | output (d : Domain) (name cell : String) (value : Option d.Value) (enumeration : String)
    (hasAccessors : Bool)
  | inputParameter (d : Domain) (symbol : String) (p : Domain) (name cell : String)
    (value : Option p.Value) (enumeration : String)
  | inputChanged (d : Domain) (symbol tag : String)
  | behavior (name : String) (isClosure : Bool) (bump : Option String)
  | behaviorParameter (behavior : String) (p : Domain) (name cell : String)
    (value : Option p.Value) (enumeration : String)

/-- The cell that a registration names, in use, with the value that it gives. -/
def prepare (w : Stage) (d : Domain) (cell : String) (value : Option d.Value) : Stage :=
  match value with
  | some x => w.write d cell x
  | none => { w with cells := w.cells.touch d cell }

/-- The stage at a registration. -/
def Registration.prepare (w : Stage) : Registration → Stage
  | .input d _ cell value .. => Scripted.prepare w d cell value
  | .output d _ cell value .. => Scripted.prepare w d cell value
  | .inputParameter _ _ p _ cell value _ => Scripted.prepare w p cell value
  | .behaviorParameter _ p _ cell value _ => Scripted.prepare w p cell value
  | .behavior _ _ (some cell) => { w with cells := w.cells.touch .decimal cell }
  | _ => w

/-- What a registration asks of the engine. -/
def Registration.register : Registration → Registering Journal Unit
  | .element enumeration name value => Registering.element enumeration name value
  | .input d name cell _ enumeration hasGetter =>
    Registering.input d name enumeration
      (if hasGetter then .getter (getter d name cell) else .cell cell)
  | .output d name cell _ enumeration hasAccessors =>
    Registering.output d name enumeration
      (if hasAccessors then .accessors (store d name cell) (fetch d name cell) else .cell cell)
  | .inputParameter d symbol p name cell _ enumeration =>
    Registering.inputParameter d symbol p name enumeration cell
  | .inputChanged d symbol tag =>
    Registering.inputChanged d symbol (note s!"changed {letter d} {tag}")
  | .behavior name isClosure bump =>
    Registering.behavior name (runBehavior name bump)
      (if isClosure then id else note s!"changed a {name}")
  | .behaviorParameter owner p name cell _ enumeration =>
    Registering.behaviorParameter owner p name enumeration cell

theorem Registration.register_keeps : (r : Registration) → r.register.KeepsSound
  | .element enumeration name value => Registering.element_keeps enumeration name value
  | .input d name _ _ enumeration _ => Registering.input_keeps d name enumeration _
  | .output d name _ _ enumeration _ => Registering.output_keeps d name enumeration _
  | .inputParameter d symbol p name cell _ enumeration =>
    Registering.inputParameter_keeps d symbol p name enumeration cell
  | .inputChanged d symbol _ => Registering.inputChanged_keeps d symbol _
  | .behavior name _ _ => Registering.behavior_keeps name _ _
  | .behaviorParameter owner p name cell _ enumeration =>
    Registering.behaviorParameter_keeps owner p name enumeration cell

/-- Adds a slot to those of a name. -/
def addSlot (r : Registry (List Slot)) (owner : String) (s : Slot) : Registry (List Slot) :=
  r.put owner (((r.get? owner).getD []) ++ [s])

/-- What the host keeps of a registration that was accepted. -/
def Registration.keep (w : Stage) : Registration → Stage
  | .inputParameter d symbol p name cell _ _ =>
    let slots := w.host.inputSlots.modify d fun r => addSlot r symbol ⟨name, p, cell⟩
    { w with host := { w.host with inputSlots := slots } }
  | .behaviorParameter owner p name cell _ _ =>
    let slots := addSlot w.host.behaviorSlots owner ⟨name, p, cell⟩
    { w with host := { w.host with behaviorSlots := slots } }
  | _ => w

/-- What registrations have built up. -/
structure Setting where
  environment : Environment Journal
  stage : Stage

/-- Nothing is registered. -/
def Setting.empty : Setting := ⟨Environment.empty, Stage.empty⟩

/-- Carries out a registration. -/
def Setting.add (s : Setting) (r : Registration) : Except RegistrationError Unit × Setting :=
  let stage := r.prepare s.stage
  match r.register.build r.register_keeps s.environment with
  | (.ok (), environment) => (.ok (), ⟨environment, r.keep stage⟩)
  | (.error e, environment) => (.error e, ⟨environment, stage⟩)

/-- Carries out registrations one after the other, whatever becomes of each. -/
def Setting.addAll (s : Setting) :
    List Registration → List (Except RegistrationError Unit) × Setting
  | [] => ([], s)
  | r :: rs =>
    let (outcome, s) := s.add r
    let (outcomes, s) := s.addAll rs
    (outcome :: outcomes, s)

/-- Carries out registrations up to the first one that is refused. -/
def Setting.addStrictly (s : Setting) : List Registration → Except RegistrationError Setting
  | [] => .ok s
  | r :: rs =>
    match s.add r with
    | (.ok (), s) => s.addStrictly rs
    | (.error e, _) => .error e

end Scripted

end BehaviorEngine
