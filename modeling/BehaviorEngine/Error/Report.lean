import BehaviorEngine.Error.Failure
import BehaviorEngine.Error.Label
import BehaviorEngine.Text.Display
import BehaviorEngine.Text.Occurrence
import BehaviorEngine.Text.Styling

/-!
Reports: failures as they are shown to a reader. A diagnostic becomes a heading and, if one of its
labels has a place in the source, the sections of its labels and the advice; a section is the
location of the diagnostic and the lines of the source with the messages of their labels. What a
report shows is judged by its text, wherever in it a message stands, without the control sequences
of terminals.
-/

namespace BehaviorEngine

namespace Report

/-- The word for a severity in a heading. -/
def severityText : Severity → String
  | .error => "Error"
  | .warning => "Warning"
  | .info => "Advice"

/-- A code in brackets, with blanks behind it up to a width of two. -/
def codeText (code : String) : String :=
  "[" ++ code ++ String.ofList (List.replicate (2 - code.length) ' ') ++ "] "

/-- The heading of a diagnostic. -/
def heading (d : Diagnostic) : String :=
  (d.code.map codeText).getD "" ++ s!"{severityText d.severity}: {d.message}"

/-- The line and the column of an offset, counted from one, or question marks behind the end of the
source. -/
def position (lines : List SourceLine) (length offset : Nat) : String :=
  match (lineAt? lines offset).filter fun _ => offset ≤ length with
  | some line => s!"{line.number}:{offset - line.start + 1}"
  | none => "?:?"

/-! ### Rows -/

/-- Blanks. -/
def blanks (n : Nat) : String := String.ofList (List.replicate n ' ')

/-- The margin of a row, with a width that leaves room for numbers of `digits` digits. -/
def margin (digits : Nat) : String := blanks (digits + 2) ++ "│"

/-- The row with the location of a diagnostic, which opens a section; the margin of the sections
before it runs on through a row that is not the first. -/
def locationRow (digits : Nat) (isFirst : Bool) (position : String) : String :=
  blanks (digits + 2) ++ (if isFirst then "╭" else "├") ++ s!"─[ <intermediate code>:{position} ]"

/-- The row of a line of the source, behind its number. -/
def sourceRow (digits : Nat) (s : SourceLine) : String :=
  let number := toString s.number
  " " ++ blanks (digits - number.length) ++ number ++ " │ " ++ String.ofList (Text.displayed s.text)

/-- The row of a message. -/
def messageRow (digits : Nat) (message : String) : String := margin digits ++ " ╰── " ++ message

/-- The rows of a line of the source, if a label marks it. -/
def lineRows (digits : Nat) (placed : List Placed) (s : SourceLine) : List String :=
  if placed.any (·.marks s) then
    sourceRow digits s ::
      (placed.filter (·.isDrawnAt s)).map fun p => messageRow digits p.label.message
  else []

/-- The lines that a section shows, with the labels that are drawn on them. -/
structure Section where
  extent : List SourceLine
  placed : List Placed
  deriving DecidableEq, Repr

namespace Section

/-- The number of the last line of a section. -/
def lastLine (s : Section) : Nat := (s.extent.getLast?).elim 0 (·.number)

/-- The rows of a section below its location. -/
def rows (digits : Nat) (s : Section) : List String :=
  margin digits :: s.extent.flatMap (lineRows digits s.placed)

end Section

/-- The sections of the report on a diagnostic. -/
def sections (source : String) (d : Diagnostic) : List Section :=
  let lines := sourceLines source
  let placed := (primaryLabel d :: relatedLabels d).filterMap (Label.place? lines source.length)
  (Placed.sections placed).map fun ps => ⟨Placed.extent lines ps, ps⟩

/-- The rows of sections, each below the location and apart from the one before it by a margin. -/
def sectionRows (digits : Nat) (position : String) : List Section → List String
  | [] => []
  | first :: rest =>
    locationRow digits true position :: first.rows digits ++
      rest.flatMap fun s =>
        margin digits :: locationRow digits false position :: s.rows digits

/-- The rows of the advice, its lines below one another. -/
def adviceRows (digits : Nat) (advice : String) : List String :=
  match Text.lines advice with
  | [] => []
  | first :: rest =>
    (margin digits ++ " Help: " ++ first) :: rest.map (margin digits ++ blanks 7 ++ ·)

/-- The row that closes a report. -/
def closingRow (digits : Nat) : String := String.ofList (List.replicate (digits + 2) '─') ++ "╯"

/-- The rows below the heading, if a label has a place in the source. -/
def bodyRows (source : String) (d : Diagnostic) : List String :=
  let all := sections source d
  let digits := (toString ((all.map (·.lastLine)).max?.getD 0)).length
  if all.isEmpty then []
  else
    sectionRows digits (position (sourceLines source) source.length d.span.start) all ++
      (d.help.map (adviceRows digits)).getD [] ++ [closingRow digits]

/-- The text of the report on a diagnostic, without the lines that lead from ranges of the source
to their messages. -/
def text (source : String) (d : Diagnostic) : String :=
  Text.withoutStyling (String.join ((heading d :: bodyRows source d).map (· ++ "\n")))

/-! ### What is shown -/

/-- Which parts of a diagnostic a report shows. -/
structure Shown where
  /-- The message stands in the heading and at another place. -/
  message : Bool
  related : List Bool
  /-- Whether the advice is shown, if there is any. -/
  help : Option Bool
  deriving DecidableEq, Repr

/-- The parts of a diagnostic that a text shows. -/
def shown (text : String) (d : Diagnostic) : Shown where
  message := 2 ≤ Text.occurrences d.message text
  related := d.related.map fun r => 1 ≤ Text.occurrences r.message text
  help := d.help.map fun help => 1 ≤ Text.occurrences ("Help: " ++ help) text

end Report

open Report

/-- A failure as a reader sees it. -/
inductive Report where
  /-- Plain text, the final line end included. -/
  | plain (text : String)
  /-- Diagnostics with labels on the source: the first line, and what is shown of each. -/
  | annotated (title : String) (shown : List Shown)
  deriving DecidableEq, Repr

namespace Report

/-- The report on diagnostics about a source. -/
def ofDiagnostics (diagnostics : List Diagnostic) (source : String) : Report :=
  let all := String.join (diagnostics.map (text source))
  .annotated (Text.firstLine all) (diagnostics.map (shown all))

/-- The report on a failure. -/
def of : Failure → Report
  | .construction diagnostics source => ofDiagnostics diagnostics source
  | failure => .plain (Text.withoutStyling (failure.message ++ "\n"))

/-- The first line of a report. -/
def title : Report → String
  | plain text => Text.firstLine text
  | annotated title _ => title

end Report

end BehaviorEngine
