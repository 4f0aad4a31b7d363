/-!
How often a text occurs in another one, counted from the left without overlaps.
-/

namespace BehaviorEngine

namespace Text

/-- Counts on from `n` behind the next `skip` characters, which belong to the occurrence that was
found last. -/
def countFrom (part : List Char) : (n skip : Nat) → List Char → Nat
  | n, _, [] => n
  | n, skip + 1, _ :: cs => countFrom part n skip cs
  | n, 0, c :: cs =>
    if part.isPrefixOf (c :: cs) then countFrom part (n + 1) (part.length - 1) cs
    else countFrom part n 0 cs

/-- How often a text occurs in another one; the empty text occurs at every character. -/
def occurrences (part whole : String) : Nat := countFrom part.toList 0 0 whole.toList

end Text

end BehaviorEngine
