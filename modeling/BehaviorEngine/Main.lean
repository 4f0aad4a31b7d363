import BehaviorEngine.Simulation

/-!
The program that runs intermediate code against a simulated environment.
-/

open BehaviorEngine

/-- The text of a file, if it can be read. -/
def readText (path : String) : IO (Option String) := do
  try
    return some (← IO.FS.readFile path)
  catch _ => return none

/-- The texts of the files that arguments name, with their paths. -/
def readFiles (arguments : List String) : IO (List (String × String)) := do
  match CommandLine.request? arguments with
  | some (.run settings sourceFile) =>
    let paths := settings.environmentFile.toList ++ [sourceFile]
    let texts ← paths.mapM fun path => do return (path, ← readText path)
    return texts.filterMap fun (path, text) => text.map fun t => (path, t)
  | _ => return []

def main (arguments : List String) : IO UInt32 := do
  let files ← readFiles arguments
  let outcome := Simulation.run (fun path => files.lookup path) arguments
  for line in outcome.output do
    IO.println line
  for title in outcome.title.toList do
    IO.eprintln title
  for error in outcome.error.toList do
    IO.eprintln s!"Error: {error}"
  return UInt32.ofNat outcome.exitCode
