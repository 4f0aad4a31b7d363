import BehaviorEngine.Error.Diagnostic
import BehaviorEngine.Text.Lines

/-!
Labels: messages at ranges of a source, and the lines of the source at which a report draws them.
Ranges and lengths count characters. A label has a place unless it starts or ends behind the end of
the source; one that reaches a single character beyond the end still has a place, but its message
is drawn at no line. The labels that have a place form sections, each with an extent of lines; a
label is drawn only within the extent of its own section.
-/

namespace BehaviorEngine

namespace Report

/-- A text attached to a range of the source, in characters. -/
structure Label where
  range : Span
  message : String
  deriving DecidableEq, Repr

/-- The label at the place of a diagnostic. The offsets of the span are taken as they are. -/
def primaryLabel (d : Diagnostic) : Label := ⟨d.span, d.message⟩

/-- The labels at the related places of a diagnostic. -/
def relatedLabels (d : Diagnostic) : List Label := d.related.map fun r => ⟨r.span, r.message⟩

/-- The offset of the last character of a label; an empty label is taken to stand on one. -/
def Label.last (l : Label) : Nat := max l.range.start (l.range.stop - 1)

/-! ### Lines of the source -/

/-- A line of a source: its number, counted from one, the offset of its first character, and its
characters with the line end. -/
structure SourceLine where
  number : Nat
  start : Nat
  text : List Char
  deriving DecidableEq, Repr

namespace SourceLine

/-- The offset behind a line. -/
def stop (s : SourceLine) : Nat := s.start + s.text.length

/-- Whether the character at an offset is one of a line. -/
def holds (s : SourceLine) (offset : Nat) : Bool := s.start ≤ offset && offset < s.stop

end SourceLine

/-- Lines with numbers and offsets from the given ones on. -/
def numbered (number start : Nat) : List (List Char) → List SourceLine
  | [] => []
  | l :: ls => ⟨number, start, l⟩ :: numbered (number + 1) (start + l.length) ls

/-- The lines of a source; an empty source is an empty line. -/
def sourceLines (source : String) : List SourceLine :=
  match Text.displayLines source.toList with
  | [] => [⟨1, 0, []⟩]
  | ls => numbered 1 0 ls

/-- The last line that starts at or before an offset. -/
def lineAt? (lines : List SourceLine) (offset : Nat) : Option SourceLine :=
  (lines.filter (·.start ≤ offset)).getLast?

/-- The number of the last line that starts at or before an offset. -/
def lineNumber (lines : List SourceLine) (offset : Nat) : Nat :=
  (lineAt? lines offset).elim 0 (·.number)

/-! ### Labels on lines -/

/-- A label that has a place, with the numbers of the lines that it starts and ends on. -/
structure Placed where
  label : Label
  firstLine : Nat
  lastLine : Nat
  deriving DecidableEq, Repr

/-- The place of a label on lines of the given number of characters, if it has one. -/
def Label.place? (lines : List SourceLine) (length : Nat) (l : Label) : Option Placed :=
  if l.last ≤ length then
    some ⟨l, lineNumber lines l.range.start, lineNumber lines l.last⟩
  else none

namespace Placed

/-- Whether a label starts and ends on one line. -/
def isInline (p : Placed) : Bool := p.firstLine = p.lastLine

/-- Whether the message of a label is drawn below a line: that of a label within one line if the
line reaches around the label, that of a longer one if it ends on the line. -/
def isDrawnAt (s : SourceLine) (p : Placed) : Bool :=
  if p.isInline then s.start ≤ p.label.range.start && p.label.range.stop ≤ s.stop
  else s.holds p.label.last

/-- Whether a label marks a line: by its message, or because a longer one starts there. -/
def marks (s : SourceLine) (p : Placed) : Bool :=
  p.isDrawnAt s || (!p.isInline && s.holds p.label.range.start)

/-- The lines from the first start of labels to the last end. -/
def extent (lines : List SourceLine) (ps : List Placed) : List SourceLine :=
  let first := (ps.map (·.label.range.start)).min?.getD 0
  let last := max first ((ps.map (·.label.range.stop)).max?.getD 0 - 1)
  let low := lineNumber lines first
  let high := lineNumber lines last
  lines.filter fun s => low ≤ s.number && s.number ≤ high

/-- Labels cut into sections: a label that ends on an earlier line than the label before it opens a
new section. -/
def sections (ps : List Placed) : List (List Placed) :=
  ps.splitBy fun p q => p.lastLine ≤ q.lastLine

end Placed

end Report

end BehaviorEngine
