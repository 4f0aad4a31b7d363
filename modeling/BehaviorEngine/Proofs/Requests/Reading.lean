import BehaviorEngine.Proofs.Construction.Closed

/-!
What constructions request. A request that is answered by a word takes this word away, and the first
one that is answered by an error is the last one; so there is at most one request more than there
are words left, whatever the construction was told to repeat and however deep it was told to nest.
-/

namespace BehaviorEngine

/-- The word that a lexeme is, if it is one. -/
def Lexeme.word? : Lexeme → Option Word
  | .word w => some w
  | .stray _ => none

/-- The words of a source, in order. -/
def Source.words (source : String) : List Word := (Source.lexemes source).filterMap Lexeme.word?

/-- The unread words. -/
def Cursor.words (c : Cursor) : List Word := c.reader.rest.filterMap Lexeme.word?

/-- A source of words has these words and no others. -/
theorem Source.words_eq {source : String} {words : List Word}
    (h : Source.lexemes source = words.map .word) : Source.words source = words := by
  have hword : Lexeme.word? ∘ Lexeme.word = some := rfl
  rw [Source.words, h, List.filterMap_map, hword, List.filterMap_some]

/-- A request that is answered takes the next word away. -/
theorem Cursor.words_eq_cons {c c' : Cursor} {w : Word} (h : Construct.word.runOn c = (.ok w, c')) :
    c.words = w :: c'.words := by
  obtain ⟨rest, hrest, -, rfl⟩ := Grammar.word_eq_ok_iff.1 h
  rw [Cursor.words, hrest, List.filterMap_cons_some (by rfl), Cursor.words]

/-- Requests that are answered take these many words away. -/
theorem Cursor.Consumes.words_length {c c' : Cursor} {ts : List String} (h : c.Consumes ts c') :
    c.words.length = ts.length + c'.words.length := by
  induction h with
  | nil => simp only [List.length_nil, Nat.zero_add]
  | cons h _ ih =>
    rw [Cursor.words_eq_cons h, List.length_cons, List.length_cons, ih]
    omega

namespace Construct

variable {σ α β : Type}

/-- **A construction asks for no more than there is**: if it succeeds, each of its requests has
taken a word away, and if it stops, at most one of them has not. -/
structure Frugal (x : Construct α) : Prop where
  answered : ∀ {c a c'}, x.runOn c = (.ok a, c') →
    c'.requests + c'.words.length = c.requests + c.words.length
  stopped : ∀ {c e c'}, x.runOn c = (.error e, c') →
    c'.requests + c'.words.length ≤ c.requests + c.words.length + 1

namespace Frugal

variable {x : Construct α}

theorem pure (a : α) : Frugal (Pure.pure a : Construct α) where
  answered := by
    rintro c _ _ ⟨⟩
    rfl
  stopped := nofun

theorem get : Frugal (MonadState.get : Construct Cursor) where
  answered := by
    rintro c _ _ ⟨⟩
    rfl
  stopped := nofun

theorem fail (cause : Cause) (span : Span) : Frugal (Construct.fail cause span : Construct α) where
  answered := nofun
  stopped := by
    rintro c _ _ ⟨⟩
    exact Nat.le_succ _

theorem bind {f : α → Construct β} (h : Frugal x)
    (hf : ∀ {c a c'}, x.runOn c = (.ok a, c') → Frugal (f a)) : Frugal (x >>= f) where
  answered hxf := by
    obtain ⟨a, c₁, hx, hfa⟩ := Stateful.bind_eq_ok_iff.1 hxf
    have hfirst := h.answered hx
    have hsecond := (hf hx).answered hfa
    omega
  stopped {c e c'} hxf := by
    rcases Stateful.bind_eq_error_iff.1 hxf with hx | ⟨a, c₁, hx, hfa⟩
    · exact h.stopped hx
    · have hfirst := h.answered hx
      have hsecond := (hf hx).stopped hfa
      omega

theorem within (node : Enclosing) (span : Span) (h : Frugal x) :
    Frugal (Construct.within node span x) where
  answered hx := h.answered (runOn_of_within hx)
  stopped hx := by
    obtain ⟨e, hx, -⟩ := exists_error_of_within hx
    exact h.stopped hx

/-- A request takes the next word away, if there is one. -/
theorem word : Frugal Construct.word where
  answered {c w c'} h := by
    rw [Cursor.words_eq_cons h, List.length_cons]
    obtain ⟨rest, -, -, rfl⟩ := Grammar.word_eq_ok_iff.1 h
    dsimp only
    omega
  stopped {c e c'} h := by
    obtain ⟨-, -, rfl⟩ | ⟨x, rest, hr, rfl, -⟩ := word_eq_error h
    · exact Nat.le_of_eq (Nat.add_right_comm _ _ _)
    · have hrest : (rest.filterMap Lexeme.word?).Sublist (c.reader.rest.filterMap Lexeme.word?) := by
        rw [hr]
        exact (List.sublist_cons_self x rest).filterMap _
      have hlength := hrest.length_le
      simp only [Cursor.words]
      omega

/-- To ask for no more than there is is kept however constructions are put together. -/
theorem closed : Closed fun _ x => Frugal x where
  pure := pure
  fail span _ := fail _ span
  bind := bind
  word := word
  cursor := get
  within node span _ h := h.within node span

/-- **An option graph asks for no more than there is**, up to the check that nothing is left. -/
theorem openGraph (limits : Limits) (environment : Environment σ) :
    Frugal (openGraph limits environment) :=
  closed.openGraph limits environment fun _ span _ => fail _ span

end Frugal

end Construct

end BehaviorEngine
