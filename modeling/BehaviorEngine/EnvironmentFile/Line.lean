/-!
The lines of an environment file. A line is a list of words between blanks; two slashes where a
word could start begin a comment that takes up the rest of the line. Lines without words are left
out, but they count.
-/

namespace BehaviorEngine

namespace EnvironmentFile

/-- A line that has words, and its number, counted from one. -/
structure Line where
  number : Nat
  words : List String
  deriving DecidableEq, Repr

/-- Space, tab, carriage return and form feed. -/
def isGap (c : Char) : Bool := c = ' ' || c = '\t' || c = '\r' || c = '\x0c'

/-- Where the scan of a line stands. -/
inductive Position where
  | between
  /-- Inside a word, with its characters so far, the last one first. -/
  | inWord (characters : List Char)
  | inComment

/-- The words of a line up to a position, given the finished ones, the last one first. -/
def wordsAt (finished : List String) : Position → List String
  | .inWord characters => (String.ofList characters.reverse :: finished).reverse
  | _ => finished.reverse

/-- A line with the given words, if there are any. -/
def lineOf (number : Nat) : List String → List Line
  | [] => []
  | words => [⟨number, words⟩]

/-- The lines of the characters from a position on, in a line of the given number. -/
def scan (number : Nat) (finished : List String) : Position → List Char → List Line
  | position, [] => lineOf number (wordsAt finished position)
  | position, '\n' :: cs =>
    lineOf number (wordsAt finished position) ++ scan (number + 1) [] .between cs
  | .between, c :: cs =>
    if isGap c then scan number finished .between cs
    else if c = '/' ∧ cs.head? = some '/' then scan number finished .inComment cs
    else scan number finished (.inWord [c]) cs
  | .inWord characters, c :: cs =>
    if isGap c then scan number (String.ofList characters.reverse :: finished) .between cs
    else scan number finished (.inWord (c :: characters)) cs
  | .inComment, _ :: cs => scan number finished .inComment cs

/-- The lines of a file that have words. -/
def lines (source : String) : List Line := scan 1 [] .between source.toList

end EnvironmentFile

end BehaviorEngine
