import BehaviorEngine.Engine.Basic
import BehaviorEngine.Error.Report
import BehaviorEngine.Scripted.Display
import BehaviorEngine.Scripted.Host

/-!
Scripted sessions: an engine with a scripted host and a clock that is set by hand. The last failure
of a step is kept, so that it can be reported later.
-/

namespace BehaviorEngine

namespace Scripted

/-- An engine in a scripted session. -/
structure Session where
  engine : Engine Journal
  /-- The reading of the clock. -/
  time : Nat
  lastFailure : Option Failure

namespace Session

/-- The session of a setting. -/
def ofSetting (limits : Limits) (time : Nat) (s : Setting) : Session :=
  ⟨Engine.new limits s.environment s.stage, time, none⟩

/-- The session after a failure. -/
def fail (s : Session) (f : Failure) : Except Failure Unit × Session :=
  (.error f, { s with lastFailure := some f })

/-- The session after a step that may fail. -/
def step (s : Session) (result : Except Misuse Unit × Engine Journal) :
    Except Failure Unit × Session :=
  match result with
  | (.ok (), engine) => (.ok (), { s with engine })
  | (.error reason, engine) => { s with engine }.fail (.misuse reason)

/-- Builds the graph of a source. -/
def create (s : Session) (source : String) : Except Failure Unit × Session :=
  match s.engine.create source with
  | (.ok (), engine) => (.ok (), { s with engine })
  | (.error e, engine) => { s with engine }.fail (Failure.ofConstruction e source)

/-- The engine with the host's calls written down from now on, or no longer. -/
def record (on : Bool) (lines : List String) (e : Engine Journal) : Engine Journal :=
  { e with world := { e.world with host := { e.world.host with recording := on, lines } } }

/-- Sets the clock. -/
def setTime (s : Session) (time : Nat) : Session := { s with time }

/-- Runs a cycle; the second part of a result is what the host has written down. -/
def execute (s : Session) : Except Failure (List String) × Session :=
  match (record true [] s.engine).execute s.time with
  | (.ok (), engine) =>
    (.ok engine.world.host.lines, { s with engine := record false [] engine })
  | (.error reason, engine) =>
    let failure := .misuse reason
    (.error failure, { s with engine := record false [] engine, lastFailure := some failure })

/-- Stores a value in a cell. -/
def setCell (s : Session) (d : Domain) (cell : String) (x : d.Value) : Session :=
  { s with engine := { s.engine with world := s.engine.world.write d cell x } }

def reset (s : Session) : Session := { s with engine := s.engine.reset }

def resetOutputs (s : Session) : Session := { s with engine := s.engine.resetOutputs }

def selectAgent (s : Session) (name : String) : Except Failure Unit × Session :=
  s.step (s.engine.selectAgent name)

def selectRoot (s : Session) (name : String) : Except Failure Unit × Session :=
  s.step (s.engine.selectRoot name)

/-- The cells of a domain with their values, by name. -/
def cells (s : Session) (d : Domain) : List (String × d.Value) :=
  (s.engine.world.cells.get d).entries.mergeSort fun x y => x.1 ≤ y.1

end Session

end Scripted

end BehaviorEngine
