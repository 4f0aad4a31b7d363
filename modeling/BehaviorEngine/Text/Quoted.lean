import BehaviorEngine.Text.Unprintable
import BehaviorEngine.Registry

/-!
Quoted text: a string between double quotes in which quotes, backslashes and the common control
characters have short escapes and every other unprintable character its code point. A registry is
listed as its quoted names with their values.
-/

namespace BehaviorEngine

namespace Text

/-- A code point in lower-case hexadecimal digits. -/
def hexadecimal (n : Nat) : String := String.ofList (Nat.toDigits 16 n)

/-- A character as it stands in a quoted text. -/
def quotedChar (c : Char) : String :=
  if c = '"' then "\\\""
  else if c = '\\' then "\\\\"
  else if c = '\n' then "\\n"
  else if c = '\r' then "\\r"
  else if c = '\t' then "\\t"
  else if c = '\x00' then "\\0"
  else if isUnprintable c then "\\u\x7b" ++ hexadecimal c.toNat ++ "\x7d"
  else c.toString

/-- A text between double quotes. -/
def quoted (text : String) : String := "\"" ++ String.join (text.toList.map quotedChar) ++ "\""

end Text

/-- A registry as text: its names in quotes, each with its value, in the order of insertion. -/
def Registry.listing {α : Type} (valueText : α → String) (r : Registry α) : String :=
  let entry := fun (e : String × α) => Text.quoted e.1 ++ ": " ++ valueText e.2
  "\x7b" ++ String.intercalate ", " (r.entries.map entry) ++ "\x7d"

end BehaviorEngine
