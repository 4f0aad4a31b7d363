import BehaviorEngine.Domain
import BehaviorEngine.Registry

/-!
The host's side of the engine: named cells, which are variables that host and engine share, and
whatever else the host keeps to itself. A cell that nothing was stored in yet holds the initial
value of its domain.
-/

namespace BehaviorEngine

/-- Cells of the three domains, each pool in the order in which its cells were first used. -/
abbrev Cells := PerDomain fun d => Registry d.Value

namespace Cells

/-- No cell holds anything. -/
def empty : Cells := PerDomain.ofFn fun _ => Registry.empty

/-- The value of a cell. -/
def read (c : Cells) (d : Domain) (name : String) : d.Value :=
  ((c.get d).get? name).getD d.initial

/-- The cells with a value stored in one of them. -/
def write (c : Cells) (d : Domain) (name : String) (x : d.Value) : Cells :=
  c.modify d fun pool => pool.put name x

/-- The cells with one of them in use, its value unchanged. -/
def touch (c : Cells) (d : Domain) (name : String) : Cells :=
  if (c.get d).contains name then c else c.write d name d.initial

end Cells

/-- The state of the host. -/
structure World (σ : Type) where
  cells : Cells
  /-- What the host keeps to itself. -/
  host : σ

namespace World

variable {σ : Type}

/-- The value of a cell. -/
def read (w : World σ) (d : Domain) (name : String) : d.Value := w.cells.read d name

/-- The world with a value stored in a cell. -/
def write (w : World σ) (d : Domain) (name : String) (x : d.Value) : World σ :=
  { w with cells := w.cells.write d name x }

end World

/-- Where the value of an input symbol comes from. -/
inductive InputBinding (σ : Type) (d : Domain) where
  | cell (name : String)
  /-- A function of the host, called at every reading. -/
  | getter (call : World σ → d.Value × World σ)

/-- Where the value of an output symbol goes and is found again. -/
inductive OutputBinding (σ : Type) (d : Domain) where
  | cell (name : String)
  /-- A pair of functions of the host. -/
  | accessors (store : d.Value → World σ → World σ) (fetch : World σ → d.Value × World σ)

section Bindings

variable {σ : Type} {d : Domain}

/-- Reads the value behind an input binding. -/
def InputBinding.read : InputBinding σ d → World σ → d.Value × World σ
  | .cell name, w => (w.read d name, w)
  | .getter call, w => call w

/-- Reads the value behind an output binding. -/
def OutputBinding.read : OutputBinding σ d → World σ → d.Value × World σ
  | .cell name, w => (w.read d name, w)
  | .accessors _ fetch, w => fetch w

/-- Stores a value behind an output binding. -/
def OutputBinding.write : OutputBinding σ d → d.Value → World σ → World σ
  | .cell name, x, w => w.write d name x
  | .accessors store _, x, w => store x w

end Bindings

end BehaviorEngine
