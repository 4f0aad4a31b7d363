/-!
Lines of a text. Plain lines end at a line feed, with or without a carriage return before it.
Lines of a display end at every character that moves to another line, and at a carriage return
with a line feed behind it together. A text that ends with a line end has no empty line behind it.
-/

namespace BehaviorEngine

namespace Text

/-- Puts a character in front of the first line. -/
def addToLine (c : Char) : List (List Char) → List (List Char)
  | [] => [[c]]
  | l :: ls => (c :: l) :: ls

/-- The lines of characters, with their line ends. -/
def plainLines (cs : List Char) : List (List Char) :=
  cs.foldr (fun c ls => if c = '\n' then [c] :: ls else addToLine c ls) []

/-- A line without its line end. -/
def withoutEnd (line : List Char) : List Char :=
  match line.reverse with
  | '\n' :: '\r' :: cs => cs.reverse
  | '\n' :: cs => cs.reverse
  | _ => line

/-- The lines of a text, without their line ends. -/
def lines (text : String) : List String :=
  (plainLines text.toList).map (String.ofList ∘ withoutEnd)

/-- The first line of a text, without its line end. -/
def firstLine (text : String) : String := (lines text).head?.getD ""

/-- The characters that move to another line of a display. -/
def endsLine (c : Char) : Bool :=
  c = '\n' || c = '\r' || c = '\x0b' || c = '\x0c' || c = '\u0085' || c = '\u2028' || c = '\u2029'

/-- Puts a character in front of the lines of a display. -/
def addToDisplay (c : Char) (ls : List (List Char)) : List (List Char) :=
  if endsLine c ∧ ¬(c = '\r' ∧ ls.head? = some ['\n']) then [c] :: ls else addToLine c ls

/-- The lines of characters on a display, with their line ends. -/
def displayLines (cs : List Char) : List (List Char) := cs.foldr addToDisplay []

end Text

end BehaviorEngine
