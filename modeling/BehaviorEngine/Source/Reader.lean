import BehaviorEngine.Integer
import BehaviorEngine.Decimal.Numeral
import BehaviorEngine.Decimal.Parts
import BehaviorEngine.Error.Construction

/-!
Reading intermediate code word by word. A reader holds the lexemes that are left; every request
takes one away, whether it is answered by a word or by an error, so reading may go on after an
error. Words longer than the limit are errors; so is the end, again and again.
-/

namespace BehaviorEngine

/-- The unread part of a source. -/
structure Reader where
  rest : List Lexeme
  /-- The offset of the end of the source. -/
  stop : Nat
  /-- The length of the longest accepted word, in bytes. -/
  limit : Nat
  deriving Repr

namespace Reader

/-- A reader at the start of a source. -/
def ofSource (source : String) (limit : Nat) : Reader :=
  ⟨Source.lexemes source, source.utf8ByteSize, limit⟩

/-- The next word, if there is one; a stray slash is an error. -/
def next (r : Reader) : Except ConstructionError (Option Word) × Reader :=
  match r.rest with
  | [] => (.ok none, r)
  | .word w :: rest => (.ok (some w), { r with rest })
  | .stray w :: rest => (.error ⟨.unrecognizedInput w.text, w.span, []⟩, { r with rest })

/-- The answer to a request for a word, given the next word. -/
def accept (r : Reader) : Option Word → Except ConstructionError Word
  | none => .error ⟨.unexpectedEnd, ⟨r.stop, r.stop⟩, []⟩
  | some w =>
    if r.limit < w.text.utf8ByteSize then
      .error ⟨.wordTooLong w.text.utf8ByteSize r.limit, w.span, []⟩
    else .ok w

/-- Requests a word. -/
def word (r : Reader) : Except ConstructionError Word × Reader :=
  (r.next.1.bind r.accept, r.next.2)

section Cases

variable {r : Reader} {w : Word} {rest : List Lexeme}

theorem word_of_nil (h : r.rest = []) :
    r.word = (.error ⟨.unexpectedEnd, ⟨r.stop, r.stop⟩, []⟩, r) := by
  unfold word next
  rw [h]
  rfl

theorem word_of_stray (h : r.rest = .stray w :: rest) :
    r.word = (.error ⟨.unrecognizedInput w.text, w.span, []⟩, { r with rest }) := by
  unfold word next
  rw [h]
  rfl

theorem word_of_lt (h : r.rest = .word w :: rest) (hw : r.limit < w.text.utf8ByteSize) :
    r.word = (.error ⟨.wordTooLong w.text.utf8ByteSize r.limit, w.span, []⟩, { r with rest }) := by
  unfold word next
  rw [h]
  simp only [Except.bind, accept, if_pos hw]

theorem word_of_le (h : r.rest = .word w :: rest) (hw : w.text.utf8ByteSize ≤ r.limit) :
    r.word = (.ok w, { r with rest }) := by
  unfold word next
  rw [h]
  simp only [Except.bind, accept, if_neg (Nat.not_lt.2 hw)]

end Cases

/-- The finite decimal that a word denotes. -/
def valueOf (w : Word) : Except ConstructionError Decimal :=
  match (readDecimal? w.text).filter Decimal.isFinite with
  | some x => .ok x
  | none => .error ⟨.invalidValue w.text, w.span, []⟩

/-- The count that a word denotes. -/
def countOf (w : Word) : Except ConstructionError Nat :=
  match readCount? w.text with
  | some n => .ok n
  | none => .error ⟨.invalidCount w.text, w.span, []⟩

/-- Requests a finite decimal, with the word that denotes it. -/
def value (r : Reader) : Except ConstructionError (Decimal × Word) × Reader :=
  (do let w ← r.word.1; return (← valueOf w, w), r.word.2)

/-- Requests a count, with the word that denotes it. -/
def count (r : Reader) : Except ConstructionError (Nat × Word) × Reader :=
  (do let w ← r.word.1; return (← countOf w, w), r.word.2)

/-- Requests that nothing is left; a word that is left is taken away. -/
def finish (r : Reader) : Except ConstructionError Unit × Reader :=
  (match r.next.1 with
    | .ok none => .ok ()
    | .ok (some w) => .error ⟨.trailingInput w.text, w.span, []⟩
    | .error e => .error e, r.next.2)

/-- Nothing is left exactly if all lexemes have been taken away. -/
theorem finish_eq_ok_iff {r : Reader} : r.finish.1 = .ok () ↔ r.rest = [] := by
  unfold finish next
  rcases r.rest with _ | ⟨_ | _, _⟩ <;> simp

end Reader

end BehaviorEngine
