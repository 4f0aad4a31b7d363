import BehaviorEngine.Source.Reader
import BehaviorEngine.Registry
import BehaviorEngine.Limits
import BehaviorEngine.Stateful

/-!
Constructions: what is built while intermediate code is read from left to right. A construction
takes words from a reader and gives a part of the graph, or stops at the first error. How often a
part is repeated is told by a count in front of it, and every repetition takes at least one word
or stops.

A cursor tells how far reading has come and how often the reader has been asked, also when the
construction has stopped.
-/

namespace BehaviorEngine

/-- How far reading has come. -/
structure Cursor where
  /-- The unread words. -/
  reader : Reader
  /-- The place of the last word read. -/
  last : Span
  /-- How often the reader has been asked for a word or for the end, whatever its answer was. -/
  requests : Nat

/-- The cursor at the start of a source. -/
def Cursor.ofSource (source : String) (limits : Limits) : Cursor :=
  ⟨Reader.ofSource source limits.wordLength, ⟨0, 0⟩, 0⟩

/-- A construction; the cursor stays where it stopped. -/
abbrev Construct (α : Type) := Stateful Cursor ConstructionError α

namespace Construct

variable {α β : Type} {c : Cursor}

/-! ### Errors -/

/-- Stops with an error at a place. -/
def fail (cause : Cause) (span : Span) : Construct α := throw ⟨cause, span, []⟩

/-- Adds an enclosing node to the errors of a construction. -/
def within (node : Enclosing) (span : Span) (x : Construct α) : Construct α := fun c =>
  let (outcome, c') := x.runOn c
  (outcome.mapError fun e => e.within ⟨node, span⟩, c')

theorem within_runOn (node : Enclosing) (span : Span) (x : Construct α) (c : Cursor) :
    (within node span x).runOn c =
      ((x.runOn c).1.mapError fun e => e.within ⟨node, span⟩, (x.runOn c).2) := rfl

/-! ### Reading -/

/-- What the reader answers. -/
def request (ask : Reader → Except ConstructionError α × Reader) : Construct α := fun c =>
  let (answer, reader) := ask c.reader
  (answer, { c with reader, requests := c.requests + 1 })

theorem request_runOn (ask : Reader → Except ConstructionError α × Reader) (c : Cursor) :
    (request ask).runOn c =
      ((ask c.reader).1, ⟨(ask c.reader).2, c.last, c.requests + 1⟩) := rfl

/-- The next word. -/
def word : Construct Word := do
  let w ← request Reader.word
  modify ({ · with last := w.span })
  return w

/-- The next word as a finite decimal. -/
def value : Construct Decimal := do
  Reader.valueOf (← word)

/-- The next word as a count, and the place of the word. -/
def count : Construct (Nat × Span) := do
  let w ← word
  let n ← Reader.countOf w
  return (n, w.span)

/-- The next word as a truth value. -/
def truth : Construct Bool := do
  let w ← word
  match w.text with
  | "true" => return true
  | "false" => return false
  | found => fail (.invalidBoolean found) w.span

/-- Nothing but blanks and comments is left. -/
def finish : Construct Unit := request Reader.finish

theorem word_of_ok {w : Word} {reader : Reader} (h : c.reader.word = (.ok w, reader)) :
    word.runOn c = (.ok w, ⟨reader, w.span, c.requests + 1⟩) := by
  have hask : (request Reader.word).runOn c = (.ok w, ⟨reader, c.last, c.requests + 1⟩) := by
    rw [request_runOn, h]
  exact Stateful.bind_of_ok hask

theorem word_of_error {e : ConstructionError} {reader : Reader}
    (h : c.reader.word = (.error e, reader)) :
    word.runOn c = (.error e, ⟨reader, c.last, c.requests + 1⟩) :=
  Stateful.bind_of_error (by rw [request_runOn, h])

theorem finish_runOn (c : Cursor) :
    finish.runOn c = (c.reader.finish.1, ⟨c.reader.finish.2, c.last, c.requests + 1⟩) := rfl

/-! ### Repetition and nesting -/

/-- Carries out a step `n` times. -/
def iterate (step : β → Construct β) : Nat → β → Construct β
  | 0, x => pure x
  | n + 1, x => do iterate step n (← step x)

/-- Carries out `item` `n` times. -/
def many (n : Nat) (item : Construct α) : Construct (List α) :=
  iterate (fun xs => return xs ++ [← item]) n []

/-- There is no further level of nesting; the last word read is the one that asks for it. -/
def tooDeep (limits : Limits) : Construct α := do
  fail (.nestingTooDeep limits.nestingDepth) (← get).last

/-! ### Names and tags -/

/-- The word is not a tag of the place. -/
def unknownTag (position : TagPosition) (tag : Word) : Construct α :=
  fail (.unknownTag position tag.text) tag.span

/-- The entry that a word names, with its position. -/
def resolve (kind : NameKind) (r : Registry α) (name : Word) : Construct (Nat × α) :=
  match r.find? name.text with
  | some found => pure found
  | none => fail (.unresolved kind name.text) name.span

/-- Adds an entry under the name that a word gives. -/
def append (kind : NameKind) (r : Registry α) (name : Word) (x : α) : Construct (Registry α) :=
  match r.append name.text x with
  | .ok s => pure s
  | .error _ => fail (.duplicate kind name.text) name.span

end Construct

end BehaviorEngine
