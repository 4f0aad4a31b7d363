import BehaviorEngine.Proofs.Comparison.Constructions
import BehaviorEngine.Proofs.Source.Lexemes
import BehaviorEngine.Proofs.Engine.Snapshots

/-!
Sources are read from left to right, and no word is looked at before its turn. A source and one that
goes on after it are read alike up to the end of the first one; so an error stays the same whatever
comes after it, a truncated source ends too early, and a complete one cannot be continued.
-/

namespace BehaviorEngine

/-! ### One source ahead of another one -/

/-- The same lexeme at corresponding places. -/
inductive Lexeme.Like (place : Span → Span → Prop) : Lexeme → Lexeme → Prop
  | word {w w' : Word} (ht : w.text = w'.text) (hs : place w.span w'.span) :
      Like place (.word w) (.word w')
  | stray {w w' : Word} (ht : w.text = w'.text) (hs : place w.span w'.span) :
      Like place (.stray w) (.stray w')

/-- All that is left to the cursor `c`, the source of which ends at `stop`, is left to the cursor
`c'` too, and then there is some more. -/
structure Cursor.Behind (place : Span → Span → Prop) (stop : Nat) (more : List Lexeme)
    (c c' : Cursor) : Prop where
  rest : ∃ kept, List.Forall₂ (Lexeme.Like place) c.reader.rest kept ∧
    c'.reader.rest = kept ++ more
  limit : c'.reader.limit = c.reader.limit
  last : place c.last c'.last
  stop : c.reader.stop = stop

namespace Comparison

open Construct

variable {place : Span → Span → Prop} {stop : Nat} {more : List Lexeme}

/-- A source is compared with one that goes on after it. The first one may end too early. -/
def behind (place : Span → Span → Prop) (stop : Nat) (more : List Lexeme) : Comparison where
  place := place
  cursor := Cursor.Behind place stop more
  excused cause span := cause = .unexpectedEnd ∧ span = ⟨stop, stop⟩

/-- Words are requested alike as long as there are any. -/
theorem behind_lawful : (behind place stop more).Lawful where
  word := by
    rintro ⟨⟨rest, _, _⟩, last, _⟩ ⟨⟨_, _, limit⟩, last', _⟩ ⟨⟨kept, hkept, rfl⟩, rfl, hlast, rfl⟩
    cases hkept with
    | nil =>
      rw [word_of_error (Reader.word_of_nil rfl)]
      exact .excused ⟨rfl, rfl⟩
    | cons h hkept =>
      cases h with
      | @word w w' ht hs =>
        by_cases hw : w.text.utf8ByteSize ≤ limit
        · rw [word_of_ok (Reader.word_of_le rfl hw), word_of_ok (Reader.word_of_le rfl (ht ▸ hw))]
          exact .ok ⟨ht, hs⟩ ⟨⟨_, hkept, rfl⟩, rfl, hs, rfl⟩
        · have hlong := Nat.lt_of_not_le hw
          rw [word_of_error (Reader.word_of_lt rfl hlong),
            word_of_error (Reader.word_of_lt rfl (ht ▸ hlong))]
          exact .error ⟨by rw [ht], hs, .nil⟩
      | stray ht hs =>
        rw [word_of_error (Reader.word_of_stray rfl), word_of_error (Reader.word_of_stray rfl)]
        exact .error ⟨congrArg Cause.unrecognizedInput ht, hs, .nil⟩
  last _ _ h := h.last

/-- If something is left to the first cursor, the same is left to the second one. -/
theorem finish_error {c c' : Cursor} {e : ConstructionError}
    (h : Cursor.Behind place stop more c c') (he : c.reader.finish.1 = .error e) :
    ∃ e', c'.reader.finish.1 = .error e' ∧ (behind place stop more).OnErrors e e' := by
  obtain ⟨⟨kept, hkept, hrest⟩, -, -, -⟩ := h
  unfold Reader.finish Reader.next at he ⊢
  rw [hrest]
  generalize c.reader.rest = rest at hkept he
  cases hkept with
  | nil => cases he
  | cons hx _ =>
    cases hx with
    | word ht hs =>
      cases he
      exact ⟨_, rfl, congrArg Cause.trailingInput ht, hs, .nil⟩
    | stray ht hs =>
      cases he
      exact ⟨_, rfl, congrArg Cause.unrecognizedInput ht, hs, .nil⟩

/-- Errors at the same places are the same. -/
theorem OnErrors.eq {K : Comparison} {e e' : ConstructionError} (hK : K.place = Eq)
    (h : K.OnErrors e e') : e = e' := by
  obtain ⟨hc, hp, hf⟩ := h
  rw [hK] at hp hf
  have hframes : e.frames = e'.frames := by
    rw [← List.forall₂_eq_eq_eq]
    exact hf.imp fun f f' h => by cases f; cases f'; cases h.1; cases h.2; rfl
  cases e; cases e'; cases hc; cases hp; cases hframes; rfl

end Comparison

/-! ### Sources -/

/-- A source consists of words, and these are their texts. -/
def Source.Spells (source : String) (texts : List String) : Prop :=
  ∃ words : List Word, lexemes source = words.map .word ∧ words.map (·.text) = texts

/-- The text of a word. -/
def Lexeme.text? : Lexeme → Option String
  | word w => some w.text
  | stray _ => none

theorem Source.spells_iff {source : String} {texts : List String} :
    Spells source texts ↔ (lexemes source).map Lexeme.text? = texts.map some := by
  constructor
  · rintro ⟨words, hwords, rfl⟩
    rw [hwords, List.map_map, List.map_map]
    rfl
  · intro h
    unfold Spells
    generalize lexemes source = xs at h ⊢
    induction xs generalizing texts with
    | nil => exact ⟨[], rfl, (List.map_eq_nil_iff.1 h.symm).symm⟩
    | cons x xs ih =>
      obtain ⟨t, ts, rfl, ht, hts⟩ := List.map_eq_cons_iff.1 h.symm
      obtain ⟨words, rfl, rfl⟩ := ih hts.symm
      cases x with
      | word w =>
        obtain rfl := Option.some_inj.1 ht
        exact ⟨w :: words, rfl, rfl⟩
      | stray w => cases ht

instance (source : String) (texts : List String) : Decidable (Source.Spells source texts) :=
  decidable_of_iff _ Source.spells_iff.symm

/-- Two sources that consist of the same words are alike but for the places of the words. -/
theorem Source.like_of_texts {words words' : List Word}
    (h : words.map (·.text) = words'.map (·.text)) :
    List.Forall₂ (Lexeme.Like fun _ _ => True) (words.map .word) (words'.map .word) := by
  rw [List.forall₂_map_left_iff, List.forall₂_map_right_iff]
  rw [← List.forall₂_eq_eq_eq, List.forall₂_map_left_iff, List.forall₂_map_right_iff] at h
  exact h.imp fun _ _ ht => .word ht trivial

namespace Graph

variable {σ : Type} {limits : Limits} {environment : Environment σ} {source : String} {g : Graph}
  {e : ConstructionError}

/-- A source describes a graph if one can be constructed and nothing is left. -/
theorem ofSource_eq : Graph.ofSource limits environment source =
    match (Construct.openGraph limits environment).runOn (Cursor.ofSource source limits) with
    | (.ok g, c) => c.reader.finish.1.map fun _ => g
    | (.error e, _) => .error e := by
  rw [Graph.ofSource, Construct.graph_eq]
  rcases hopen : (Construct.openGraph limits environment).runOn (Cursor.ofSource source limits) with
    ⟨e | g, c⟩
  · rw [Stateful.bind_of_error hopen]
  · rw [Stateful.bind_of_ok hopen]
    rcases hend : c.reader.finish.1 with e | u
    · rw [Stateful.bind_of_error (by rw [Construct.finish_runOn, hend])]
      simp only [hend]
      rfl
    · rw [Stateful.bind_of_ok (by rw [Construct.finish_runOn, hend])]
      simp only [hend]
      rfl

/-- A source and one that goes on after it are at corresponding places at the start. -/
theorem behind_ofSource {s s' : String} {place : Span → Span → Prop} {kept more : List Lexeme}
    (hkept : List.Forall₂ (Lexeme.Like place) (Source.lexemes s) kept)
    (hs' : Source.lexemes s' = kept ++ more) (hstart : place ⟨0, 0⟩ ⟨0, 0⟩) (limits : Limits) :
    Cursor.Behind place s.utf8ByteSize more (Cursor.ofSource s limits)
      (Cursor.ofSource s' limits) :=
  ⟨⟨kept, hkept, hs'⟩, rfl, hstart, rfl⟩

/-- A source is behind what it is continued to. -/
theorem behind_append (s t : String) (limits : Limits) :
    Cursor.Behind Eq s.utf8ByteSize ((Source.lexemes t).map (Lexeme.shift (s ++ "\n").utf8ByteSize))
      (Cursor.ofSource s limits) (Cursor.ofSource (s ++ "\n" ++ t) limits) :=
  behind_ofSource (List.forall₂_same.2 fun x _ => by cases x <;> constructor <;> rfl)
    (Source.lexemes_append s t) rfl limits

/-- A graph that a source describes leaves nothing. -/
theorem exists_openGraph (h : Graph.ofSource limits environment source = .ok g) :
    ∃ c, (Construct.openGraph limits environment).runOn (Cursor.ofSource source limits) =
      (.ok g, c) ∧ c.reader.rest = [] := by
  rw [ofSource_eq] at h
  generalize (Construct.openGraph limits environment).runOn (Cursor.ofSource source limits) = r
    at h ⊢
  obtain ⟨_ | g', c⟩ := r
  · cases h
  · simp only at h
    cases hf : c.reader.finish.1 with
    | error e =>
      rw [hf] at h
      cases h
    | ok =>
      rw [hf] at h
      cases h
      exact ⟨c, rfl, Reader.finish_eq_ok_iff.1 hf⟩

/-- **An error is not undone by what comes after it**, unless the source just ends too early. -/
theorem ofSource_append_eq_error (h : Graph.ofSource limits environment source = .error e)
    (he : e.cause ≠ .unexpectedEnd) (t : String) :
    Graph.ofSource limits environment (source ++ "\n" ++ t) = .error e := by
  rw [ofSource_eq] at h ⊢
  have hbeside := Comparison.openGraph Comparison.behind_lawful (.refl limits) environment _ _
    (behind_append source t limits)
  generalize (Construct.openGraph limits environment).runOn (Cursor.ofSource source limits) = r,
    (Construct.openGraph limits environment).runOn
      (Cursor.ofSource (source ++ "\n" ++ t) limits) = r' at h hbeside ⊢
  cases hbeside with
  | @ok g _ c c' hg hc =>
    simp only at h ⊢
    cases hf : c.reader.finish.1 with
    | ok =>
      rw [hf] at h
      cases h
    | error e₀ =>
      rw [hf] at h
      cases h
      obtain ⟨e', hf', he'⟩ := Comparison.finish_error hc hf
      rw [hf', ← he'.eq rfl]
      rfl
  | error he' =>
    rw [← he'.eq rfl]
    exact h
  | excused he' =>
    cases h
    exact absurd he'.1 he

/-- **A truncated source ends too early.** -/
theorem ofSource_prefix_eq_error {us vs : List String} {s : String}
    (h : Graph.ofSource limits environment source = .ok g)
    (hsource : Source.Spells source (us ++ vs)) (hvs : vs ≠ []) (hs : Source.Spells s us) :
    ∃ frames, Graph.ofSource limits environment s =
      .error ⟨.unexpectedEnd, ⟨s.utf8ByteSize, s.utf8ByteSize⟩, frames⟩ := by
  obtain ⟨words, hwords, htexts⟩ := hsource
  obtain ⟨kept, more, rfl, hkept, rfl⟩ := List.map_eq_append_iff.1 htexts
  obtain ⟨words', hwords', rfl⟩ := hs
  have hmore : more ≠ [] := by simpa using hvs
  rw [List.map_append] at hwords
  have hbeside := Comparison.openGraph Comparison.behind_lawful (.refl limits) environment _ _
    (behind_ofSource (hwords' ▸ Source.like_of_texts hkept.symm) hwords trivial limits)
  obtain ⟨c', hc', hrest'⟩ := exists_openGraph h
  rw [hc'] at hbeside
  rw [ofSource_eq]
  generalize (Construct.openGraph limits environment).runOn (Cursor.ofSource s limits) = r
    at hbeside ⊢
  cases hbeside with
  | ok hg hc =>
    -- The whole source would leave the words that the truncated one lacks.
    obtain ⟨_, -, hrest⟩ := hc.rest
    rw [hrest', eq_comm, List.append_eq_nil_iff, List.map_eq_nil_iff] at hrest
    exact absurd hrest.2 hmore
  | @excused e _ _ he =>
    obtain ⟨cause, span, frames⟩ := e
    obtain ⟨rfl, rfl⟩ := he
    exact ⟨frames, rfl⟩

/-- **A complete source cannot be continued.** -/
theorem ofSource_append_eq_trailing (h : Graph.ofSource limits environment source = .ok g)
    {t : String} {w : Word} {rest : List Lexeme} (ht : Source.lexemes t = .word w :: rest) :
    Graph.ofSource limits environment (source ++ "\n" ++ t) =
      .error ⟨.trailingInput w.text, w.span.shift (source ++ "\n").utf8ByteSize, []⟩ := by
  have hbeside := Comparison.openGraph Comparison.behind_lawful (.refl limits) environment _ _
    (behind_append source t limits)
  obtain ⟨c, hc, hrest⟩ := exists_openGraph h
  rw [hc] at hbeside
  rw [ofSource_eq]
  generalize (Construct.openGraph limits environment).runOn
    (Cursor.ofSource (source ++ "\n" ++ t) limits) = r' at hbeside ⊢
  cases hbeside with
  | ok hg hbehind =>
    obtain ⟨kept, hkept, hrest'⟩ := hbehind.rest
    rw [hrest, List.forall₂_nil_left_iff] at hkept
    rw [hkept, ht, List.nil_append, List.map_cons] at hrest'
    simp only [Reader.finish, Reader.next, hrest']
    rfl

/-- **Sources are read without looking ahead.** If a source is at fault and does not just end too
early, then whatever comes after it in further lines, the error is the same. If a source describes
a graph, every text of some, but not all of its first words ends too early, and every continuation
in further lines is refused for its first word. -/
theorem ofSource_prefix_free (limits : Limits) (environment : Environment σ) (source : String) :
    (∀ e, Graph.ofSource limits environment source = .error e → e.cause ≠ .unexpectedEnd →
      ∀ t, Graph.ofSource limits environment (source ++ "\n" ++ t) = .error e) ∧
    ∀ g, Graph.ofSource limits environment source = .ok g →
      (∀ us vs s, Source.Spells source (us ++ vs) → vs ≠ [] → Source.Spells s us →
        ∃ frames, Graph.ofSource limits environment s =
          .error ⟨.unexpectedEnd, ⟨s.utf8ByteSize, s.utf8ByteSize⟩, frames⟩) ∧
      ∀ t w rest, Source.lexemes t = .word w :: rest →
        Graph.ofSource limits environment (source ++ "\n" ++ t) =
          .error ⟨.trailingInput w.text, w.span.shift (source ++ "\n").utf8ByteSize, []⟩ :=
  ⟨fun _ h he t => ofSource_append_eq_error h he t, fun _ h =>
    ⟨fun _ _ _ hsource hvs hs => ofSource_prefix_eq_error h hsource hvs hs,
      fun _ _ _ ht => ofSource_append_eq_trailing h ht⟩⟩

/-- An option that does nothing. -/
def idleSource : String := "1 idle 0 idle 1 s s s 0 0 t s 0"

theorem ofSource_prefix_free_idle :
    (∃ g, Graph.ofSource Limits.standard Engine.lamp idleSource = .ok g) ∧
    (∃ frames, Graph.ofSource Limits.standard Engine.lamp "1 // one option\nidle 0 idle" =
      .error ⟨.unexpectedEnd, ⟨27, 27⟩, frames⟩) ∧
    Graph.ofSource Limits.standard Engine.lamp (idleSource ++ "\n" ++ "// done\n and more") =
      .error ⟨.trailingInput "and", ⟨41, 44⟩, []⟩ ∧
    ∀ t, Graph.ofSource Limits.standard Engine.lamp ("1 idle none" ++ "\n" ++ t) =
      .error ⟨.invalidCount "none", ⟨7, 11⟩, []⟩ := by
  have hok : (Graph.ofSource Limits.standard Engine.lamp idleSource).isOk = true := by
    decide +kernel
  obtain ⟨g, hg⟩ : ∃ g, Graph.ofSource Limits.standard Engine.lamp idleSource = .ok g := by
    cases h : Graph.ofSource Limits.standard Engine.lamp idleSource with
    | ok g => exact ⟨g, rfl⟩
    | error e =>
      rw [h] at hok
      cases hok
  have herror : Graph.ofSource Limits.standard Engine.lamp "1 idle none" =
      .error ⟨.invalidCount "none", ⟨7, 11⟩, []⟩ := by
    rfl
  obtain ⟨hproper, hmore⟩ := (ofSource_prefix_free Limits.standard Engine.lamp idleSource).2 g hg
  refine ⟨⟨g, hg⟩, ?_, ?_, ?_⟩
  · exact hproper ["1", "idle", "0", "idle"] ["1", "s", "s", "s", "0", "0", "t", "s", "0"]
      "1 // one option\nidle 0 idle" (by decide +kernel) (by decide) (by decide +kernel)
  · exact hmore "// done\n and more" ⟨"and", ⟨9, 12⟩⟩ [.word ⟨"more", ⟨13, 17⟩⟩] (by decide +kernel)
  · exact (ofSource_prefix_free Limits.standard Engine.lamp "1 idle none").1 _ herror
      (by decide)

end Graph

end BehaviorEngine
