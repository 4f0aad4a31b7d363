/-!
The words of intermediate code. Words are separated by blanks; two slashes where a word could
start begin a comment that reaches up to the end of the line. Inside a word a slash is a
character like any other, and a single slash where a word could start is no word but a stray
character. Places are counted in bytes of the UTF-8 form.
-/

namespace BehaviorEngine

/-- A range of bytes of a source, the end not included. -/
structure Span where
  start : Nat
  stop : Nat
  deriving DecidableEq, Repr, Inhabited

/-- A word and the place where it stands. -/
structure Word where
  text : String
  span : Span
  deriving DecidableEq, Repr

/-- The word as a tag, if it is a single character. -/
def Word.tag? (w : Word) : Option Char :=
  match w.text.toList with
  | [c] => some c
  | _ => none

/-- What a source consists of, blanks and comments apart. -/
inductive Lexeme where
  | word (word : Word)
  /-- A slash that neither begins a comment nor stands inside a word. -/
  | stray (slash : Word)
  deriving DecidableEq, Repr

namespace Source

/-- Space, tab, carriage return, line feed and form feed. -/
def isBlank (c : Char) : Bool :=
  c = ' ' || c = '\t' || c = '\r' || c = '\n' || c = '\x0c'

/-- Where the scan of a source stands. -/
inductive Position where
  | between
  /-- Inside a word that began at `start`, with its characters so far, the last one first. -/
  | inWord (start : Nat) (characters : List Char)
  | inComment

/-- The word that a scan has read up to the offset `stop`. -/
def wordOf (start : Nat) (characters : List Char) (stop : Nat) : Word :=
  ⟨String.ofList characters.reverse, ⟨start, stop⟩⟩

/-- The lexemes of the characters from the offset `here` on. -/
def scan : Position → Nat → List Char → List Lexeme
  | .inWord start characters, here, [] => [.word (wordOf start characters here)]
  | _, _, [] => []
  | .between, here, c :: cs =>
    let next := here + c.utf8Size
    if isBlank c then scan .between next cs
    else if c = '/' then
      if cs.head? = some '/' then scan .inComment next cs
      else .stray ⟨"/", ⟨here, next⟩⟩ :: scan .between next cs
    else scan (.inWord here [c]) next cs
  | .inWord start characters, here, c :: cs =>
    let next := here + c.utf8Size
    if isBlank c then .word (wordOf start characters here) :: scan .between next cs
    else scan (.inWord start (c :: characters)) next cs
  | .inComment, here, c :: cs =>
    scan (if c = '\n' then .between else .inComment) (here + c.utf8Size) cs

/-- The lexemes of a source, in order. -/
def lexemes (source : String) : List Lexeme := scan .between 0 source.toList

end Source

end BehaviorEngine
