/-!
A line of text on a display: blanks at its end are left out, a tab is filled up to the next tab
stop, and every other blank is a space. Columns count characters.
-/

namespace BehaviorEngine

namespace Text

/-- The characters that show nothing and take up space: the white space of Unicode. -/
def isBlank (c : Char) : Bool :=
  let n := c.toNat
  (9 ≤ n && n ≤ 13) || n = 0x20 || n = 0x85 || n = 0xa0 || n = 0x1680 ||
    (0x2000 ≤ n && n ≤ 0x200a) || n = 0x2028 || n = 0x2029 || n = 0x202f || n = 0x205f || n = 0x3000

/-- The distance of tab stops. -/
def tabWidth : Nat := 4

/-- What is shown for a character in a column. -/
def cell (c : Char) (column : Nat) : List Char :=
  if c = '\t' then List.replicate (tabWidth - column % tabWidth) ' '
  else if isBlank c then [' ']
  else [c]

/-- A line without the blanks at its end. -/
def withoutTrailingBlanks (line : List Char) : List Char := (line.reverse.dropWhile isBlank).reverse

/-- A line as it is shown. -/
def displayed (line : List Char) : List Char :=
  (withoutTrailingBlanks line).zipIdx.flatMap fun (c, column) => cell c column

end Text

end BehaviorEngine
