import BehaviorEngine.Domain

/-!
What call sites remember: the arguments that a site has bound at its last evaluation. A site is
known by its path in the graph. Arguments are the same if they are equal, so a decimal that is no
number is no change against itself, while a zero of the other sign is one.
-/

namespace BehaviorEngine

/-- The way from the graph to one of its nodes as positions, the innermost first. -/
abbrev Path := List Nat

/-- A value bound to the parameter of a domain at a position. -/
structure Argument where
  domain : Domain
  index : Nat
  value : domain.Value
  deriving DecidableEq, Repr

/-- The arguments bound at the call sites that have been evaluated. -/
structure Memory where
  entries : List (Path × List Argument)
  deriving Repr

namespace Memory

/-- Nothing is remembered. -/
def empty : Memory := ⟨[]⟩

/-- What a call site has bound the last time. -/
def get? (m : Memory) (site : Path) : Option (List Argument) := m.entries.lookup site

/-- Replaces what is kept under a key, or adds it at the end. -/
def store (site : Path) (arguments : List Argument) :
    List (Path × List Argument) → List (Path × List Argument)
  | [] => [(site, arguments)]
  | (p, old) :: rest =>
    if p = site then (site, arguments) :: rest else (p, old) :: store site arguments rest

/-- The memory with the arguments that a call site has bound. -/
def remember (m : Memory) (site : Path) (arguments : List Argument) : Memory :=
  ⟨store site arguments m.entries⟩

/-- Whether the arguments that a call site has bound call for a notification: there are some, and
they are not those of the last time. -/
def isChange (m : Memory) (site : Path) (arguments : List Argument) : Bool :=
  !arguments.isEmpty && m.get? site != some arguments

end Memory

end BehaviorEngine
