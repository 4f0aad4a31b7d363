/-!
Control sequences of terminals, which set colors and the like: an escape character and an opening
bracket, any number of parameters, and a final letter. A reader of the text does not see them.
-/

namespace BehaviorEngine

namespace Text

/-- Whether a character can stand inside a control sequence. -/
def isSequenceParameter (c : Char) : Bool := ' ' ≤ c && c ≤ '?'

/-- Whether a character ends a control sequence. -/
def isSequenceEnd (c : Char) : Bool := '@' ≤ c && c ≤ '~'

/-- The number of characters of the control sequence that begins a text, if one does. -/
def sequenceLength? : List Char → Option Nat
  | '\x1b' :: '[' :: cs =>
    let parameters := cs.takeWhile isSequenceParameter
    if (cs.drop parameters.length).head?.any isSequenceEnd then some (parameters.length + 3)
    else none
  | _ => none

/-- The characters behind the next `skip` ones that are in no control sequence. -/
def visibleFrom : (skip : Nat) → List Char → List Char
  | _, [] => []
  | skip + 1, _ :: cs => visibleFrom skip cs
  | 0, c :: cs =>
    match sequenceLength? (c :: cs) with
    | some n => visibleFrom (n - 1) cs
    | none => c :: visibleFrom 0 cs

/-- A text without its control sequences. -/
def withoutStyling (text : String) : String := String.ofList (visibleFrom 0 text.toList)

end Text

end BehaviorEngine
