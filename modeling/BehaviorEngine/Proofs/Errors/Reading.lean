import Mathlib.Order.Nat
import BehaviorEngine.Construction.Graph
import BehaviorEngine.Proofs.Source.Places

/-!
Where errors stand. A construction reads words one after another; it blames a word that it has read,
the next lexeme, or the end of the source, and the nodes around the error are named by words that
were read before it. So a construction from an offset on is at fault behind that offset, and every
node that is put around it is named by a word in front of what it has read.

The rules of this module follow the way constructions are put together.
-/

namespace BehaviorEngine

/-! ### Errors -/

/-- The part of a source that a cause repeats. -/
def Cause.quoted? : Cause → Option String
  | unrecognizedInput text => some text
  | invalidValue found | invalidCount found | invalidBoolean found | invalidTargetFlag found
  | outOfOrder _ _ found | trailingInput found => some found
  | unknownTag _ tag => some tag
  | unresolved _ name | duplicate _ name | duplicateBinding name _ => some name
  | unknownElement _ element | untypedElement element => some element
  | unexpectedEnd | wordTooLong .. | emptyGraph | nestingTooDeep _ | unboundParameter ..
  | missingOperands _ | enumerationMismatch .. => none

/-- What a cause says of a word is so: it repeats its text and gives its length. -/
structure Cause.Suits (cause : Cause) (w : Word) : Prop where
  quoted : ∀ text ∈ cause.quoted?, text = w.text
  length : ∀ length limit, cause = .wordTooLong length limit → length = w.text.utf8ByteSize

/-- A cause can stand at a place of a source. -/
inductive Cause.StandsAt (source : String) : Cause → Span → Prop
  /-- There are no more words at the end. -/
  | stop : StandsAt source .unexpectedEnd ⟨source.utf8ByteSize, source.utf8ByteSize⟩
  | stray {w : Word} (h : .stray w ∈ Source.lexemes source) :
      StandsAt source (.unrecognizedInput w.text) w.span
  /-- All other causes are about a word. -/
  | word {cause : Cause} {w : Word} (h : Source.HasWord source w) (hend : cause ≠ .unexpectedEnd)
      (hstray : ∀ text, cause ≠ .unrecognizedInput text) (hw : cause.Suits w) :
      StandsAt source cause w.span

namespace Cause.StandsAt

variable {source : String} {cause : Cause} {span : Span}

/-- A source has a text where a cause stands, and the cause says of it what is so. -/
theorem hasAt (h : cause.StandsAt source span) : ∃ text, Source.HasAt source span text ∧
    (∀ quoted ∈ cause.quoted?, quoted = text) ∧
    ∀ length limit, cause = .wordTooLong length limit → length = text.utf8ByteSize := by
  cases h with
  | stop => exact ⟨"", .stop source, nofun, nofun⟩
  | @stray w hw =>
    exact ⟨w.text, Source.hasAt_of_mem hw, fun _ h => (Option.some_inj.1 h).symm, nofun⟩
  | @word _ w hw hend hstray hsuits =>
    exact ⟨w.text, Source.hasAt_of_mem hw, hsuits.quoted, hsuits.length⟩

theorem span_eq_stop (h : Cause.unexpectedEnd.StandsAt source span) :
    span = ⟨source.utf8ByteSize, source.utf8ByteSize⟩ := by
  cases h with
  | stop => rfl
  | word _ hend => exact absurd rfl hend

theorem exists_word (h : cause.StandsAt source span) (hend : cause ≠ .unexpectedEnd)
    (hstray : ∀ text, cause ≠ .unrecognizedInput text) :
    ∃ w, Source.HasWord source w ∧ span = w.span := by
  cases h with
  | stop => exact absurd rfl hend
  | stray hw => exact absurd rfl (hstray _)
  | word hw => exact ⟨_, hw, rfl⟩

end Cause.StandsAt

/-- Whether a node is a declaration that an error is about, and not one around the error. -/
def Enclosing.isDeclaration : Enclosing → Bool
  | declaration _ => true
  | _ => false

namespace ConstructionError

/-- **An error points into a source**: it stands where its cause can stand, and the nodes around it
are named by words that stand before it, outer ones before inner ones. A declaration that it is
about stands by itself. -/
structure PointsInto (source : String) (e : ConstructionError) : Prop where
  place : e.cause.StandsAt source e.span
  words : ∀ f ∈ e.frames, ∃ w, Source.HasWord source w ∧ f.span = w.span
  before : ∀ f ∈ e.frames, f.span.start ≤ e.span.start
  falling : e.frames.Pairwise fun f g => g.span.start < f.span.start
  declaration : ∀ f ∈ e.frames, f.node.isDeclaration = true → e.frames = [f]

/-- An error points into a source, at or behind an offset; all nodes around it are named behind the
offset, and none is a declaration. -/
structure Since (source : String) (k : Nat) (e : ConstructionError) : Prop
    extends e.PointsInto source where
  start : k ≤ e.span.start
  behind : ∀ f ∈ e.frames, k < f.span.start
  nodes : ∀ f ∈ e.frames, f.node.isDeclaration = false

namespace Since

variable {source : String} {k j : Nat} {e : ConstructionError}

theorem mono (h : e.Since source j) (hk : k ≤ j) : e.Since source k where
  toPointsInto := h.toPointsInto
  start := hk.trans h.start
  behind := fun f hf => hk.trans_lt (h.behind f hf)
  nodes := h.nodes

/-- An error that no node is around. -/
theorem of_place {cause : Cause} {span : Span} (h : cause.StandsAt source span)
    (hk : k ≤ span.start) : (⟨cause, span, []⟩ : ConstructionError).Since source k where
  place := h
  words := nofun
  before := nofun
  falling := .nil
  declaration := nofun
  start := hk
  behind := nofun
  nodes := nofun

/-- **A node around an error** is named in front of everything that was read for it. -/
theorem within {w : Word} {node : Enclosing} (h : e.Since source w.span.start)
    (hw : Source.HasWord source w) (hk : k < w.span.start) (hnode : node.isDeclaration = false) :
    (e.within ⟨node, w.span⟩).Since source k := by
  have hframes : ∀ f ∈ (e.within ⟨node, w.span⟩).frames, f ∈ e.frames ∨ f = ⟨node, w.span⟩ := by
    intro f hf
    simpa [ConstructionError.within] using hf
  have hnodes : ∀ f ∈ (e.within ⟨node, w.span⟩).frames, f.node.isDeclaration = false := by
    intro f hf
    rcases hframes f hf with hf | rfl
    · exact h.nodes f hf
    · exact hnode
  refine ⟨⟨h.place, ?_, ?_, ?_, ?_⟩, ?_, ?_, hnodes⟩
  · intro f hf
    rcases hframes f hf with hf | rfl
    · exact h.words f hf
    · exact ⟨w, hw, rfl⟩
  · intro f hf
    rcases hframes f hf with hf | rfl
    · exact h.before f hf
    · exact h.start
  · refine List.pairwise_append.2 ⟨h.falling, List.pairwise_singleton _ _, fun f hf g hg => ?_⟩
    obtain rfl := List.mem_singleton.1 hg
    exact h.behind f hf
  · exact fun f hf hdeclaration => absurd hdeclaration (by simp [hnodes f hf])
  · exact hk.le.trans h.start
  · intro f hf
    rcases hframes f hf with hf | rfl
    · exact hk.trans (h.behind f hf)
    · exact hk

end Since

end ConstructionError

/-! ### Constructions -/

/-- A cursor stands in a source, and the last word that was read starts at or behind an offset. -/
structure Cursor.Inside (source : String) (k : Nat) (c : Cursor) : Prop where
  stop : c.reader.stop = source.utf8ByteSize
  rest : c.reader.rest <:+ Source.lexemes source
  last : ∃ w, Source.HasWord source w ∧ c.last = w.span
  reached : k ≤ c.last.start
  ahead : ∀ x ∈ c.reader.rest, c.last.start < x.span.start

namespace Cursor.Inside

variable {source : String} {k j : Nat} {c : Cursor}

theorem mono (h : c.Inside source j) (hk : k ≤ j) : c.Inside source k :=
  { h with reached := hk.trans h.reached }

/-- The start of a word lies inside the source. -/
theorem le_size (h : c.Inside source k) :
    c.last.start ≤ source.utf8ByteSize := by
  obtain ⟨w, hw, hlast⟩ := h.last
  have hat := Source.hasAt_of_mem hw
  have hstop := hat.stop_le
  have heq := hat.stop_eq
  rw [hlast]
  simp only [Lexeme.span] at hstop heq
  omega

end Cursor.Inside

namespace Construct

variable {source : String} {k j : Nat} {α β : Type}

/-- A construction has ended inside a source; `A` tells what its result is, given where the last
word starts, and `E` what its error is. -/
inductive Outcome (source : String) (k : Nat) (A : Nat → α → Prop) (E : ConstructionError → Prop) :
    Except ConstructionError α × Cursor → Prop
  | ok {a : α} {c : Cursor} (h : A c.last.start a) (hc : c.Inside source k) :
      Outcome source k A E (.ok a, c)
  | error {e : ConstructionError} {c : Cursor} (h : E e) : Outcome source k A E (.error e, c)

/-- From wherever a construction begins at or behind an offset, it ends inside the source and goes
no way back. -/
def Meets (source : String) (k : Nat) (A : Nat → α → Prop) (E : ConstructionError → Prop)
    (x : Construct α) : Prop :=
  ∀ c, c.Inside source k → Outcome source c.last.start A E (x.runOn c)

/-- **A construction blames what it reads**: its errors stand at or behind the last word that was
read before it, and the nodes around them are named behind that word. -/
def Blames (source : String) (x : Construct α) : Prop :=
  ∀ k, Meets source k (fun _ _ => True) (·.Since source k) x

namespace Meets

variable {A : Nat → α → Prop} {B : Nat → β → Prop} {E F : ConstructionError → Prop}
  {x : Construct α}

/-- A construction that begins further on. -/
theorem from_le (h : Meets source k A E x) (hk : k ≤ j) : Meets source j A E x :=
  fun c hc => h c (hc.mono hk)

theorem errors (h : Meets source k A E x) (hE : ∀ e, E e → F e) : Meets source k A F x := by
  intro c hc
  have hx := h c hc
  generalize x.runOn c = r at hx ⊢
  cases hx with
  | ok ha hc' => exact .ok ha hc'
  | error he => exact .error (hE _ he)

theorem results {A' : Nat → α → Prop} (h : Meets source k A E x)
    (hA : ∀ j a, k ≤ j → A j a → A' j a) : Meets source k A' E x := by
  intro c hc
  have hx := h c hc
  generalize x.runOn c = r at hx ⊢
  cases hx with
  | ok ha hc' => exact .ok (hA _ _ (hc.reached.trans hc'.reached) ha) hc'
  | error he => exact .error he

/-! ### Sequences -/

theorem pure {a : α} (h : ∀ j, k ≤ j → A j a) : Meets source k A E (Pure.pure a : Construct α) :=
  fun _ hc => .ok (h _ hc.reached) { hc with reached := le_rfl }

theorem bind {f : α → Construct β} (h : Meets source k A E x)
    (hf : ∀ j a, k ≤ j → A j a → Meets source j B E (f a)) : Meets source k B E (x >>= f) := by
  intro c hc
  have hx := h c hc
  generalize hxc : x.runOn c = r at hx
  cases hx with
  | error he =>
    rw [Stateful.bind_of_error hxc]
    exact .error he
  | @ok a c' ha hc' =>
    rw [Stateful.bind_of_ok hxc]
    have hj : k ≤ c'.last.start := hc.reached.trans hc'.reached
    have hout := hf c'.last.start a hj ha c' { hc' with reached := le_rfl }
    generalize (f a).runOn c' = r at hout ⊢
    cases hout with
    | error he => exact .error he
    | ok hb hc'' => exact .ok hb (hc''.mono hc'.reached)

/-- A sequence of which the second part needs nothing to be known of the result of the first. -/
theorem seq {f : α → Construct β} (h : Meets source k A E x)
    (hf : ∀ a, Meets source k B E (f a)) : Meets source k B E (x >>= f) :=
  h.bind fun _ a hj _ => (hf a).from_le hj

/-- A sequence of which the second part only shapes the result. -/
theorem seq_pure {f : α → β} (h : Meets source k A E x) :
    Meets source k (fun _ _ => True) E (x >>= fun a => Pure.pure (f a)) :=
  h.seq fun _ => pure fun _ _ => trivial

theorem fail {cause : Cause} {span : Span} (h : E ⟨cause, span, []⟩) :
    Meets source k A E (Construct.fail cause span) := fun _ _ => .error h

theorem within {node : Enclosing} {span : Span} (h : Meets source k A F x)
    (hE : ∀ e, F e → E (e.within ⟨node, span⟩)) :
    Meets source k A E (Construct.within node span x) := by
  intro c hc
  rw [within_runOn]
  have hx := h c hc
  generalize x.runOn c = r at hx ⊢
  cases hx with
  | ok ha hc' => exact .ok ha hc'
  | error he => exact .error (hE _ he)

/-- A check in front of a construction. -/
theorem check {p : Prop} [Decidable p] {y : Construct PUnit} {f : PUnit → Construct β}
    (h : p → Meets source k (fun _ _ => False) E y) (hf : Meets source k B E (f ⟨⟩)) :
    Meets source k B E (if p then y >>= f else f ⟨⟩) := by
  by_cases hp : p
  · rw [if_pos hp]
    exact (h hp).bind fun _ _ _ hfalse => hfalse.elim
  · rw [if_neg hp]
    exact hf

/-! ### Repetition -/

theorem iterate {step : α → Construct α} (hA : ∀ i j a, i ≤ j → A i a → A j a)
    (h : ∀ j a, k ≤ j → A j a → Meets source j A E (step a)) (n : Nat) {a : α} (ha : A k a) :
    Meets source k A E (Construct.iterate step n a) := by
  induction n generalizing k a with
  | zero => exact pure fun j hj => hA k j a hj ha
  | succ n ih =>
    exact (h k a le_rfl ha).bind fun j b hj hb => ih (fun i b hi => h i b (hj.trans hi)) hb

/-- A step of which nothing needs to be known is carried out `n` times. -/
theorem iterate_seq {step : α → Construct α}
    (h : ∀ a, Meets source k (fun _ _ => True) E (step a)) (n : Nat) (a : α) :
    Meets source k (fun _ _ => True) E (Construct.iterate step n a) :=
  iterate (fun _ _ _ _ h => h) (fun _ b hj _ => (h b).from_le hj) n trivial

theorem many {y : Construct α} (h : Meets source k A E y) (n : Nat) :
    Meets source k (fun _ _ => True) E (Construct.many n y) :=
  iterate_seq (fun _ => h.seq_pure) n []

theorem mapM {f : α → Construct β} {as : List α}
    (h : ∀ a ∈ as, Meets source k (fun _ _ => True) E (f a)) :
    Meets source k (fun _ _ => True) E (as.mapM f) := by
  induction as with
  | nil =>
    rw [List.mapM_nil]
    exact pure fun _ _ => trivial
  | cons a as ih =>
    rw [List.mapM_cons]
    have hrest := ih fun b hb => h b (List.mem_cons_of_mem _ hb)
    exact (h a List.mem_cons_self).seq fun _ => hrest.seq_pure

end Meets

/-! ### Words -/

/-- What a request for a word gives: the word, with which the cursor goes on, or an error about the
next lexeme or the end. -/
theorem word_cases {c : Cursor} (hstop : c.reader.stop = source.utf8ByteSize)
    (hrest : c.reader.rest <:+ Source.lexemes source) :
    (∃ w c', word.runOn c = (.ok w, c') ∧ Source.HasWord source w ∧ c'.Inside source w.span.start ∧
      c'.last = w.span ∧ .word w ∈ c.reader.rest) ∨
    ∃ (e : ConstructionError) (c' : Cursor), word.runOn c = (.error e, c') ∧
      e.cause.StandsAt source e.span ∧ e.frames = [] ∧
      (e.span.start = source.utf8ByteSize ∨ ∃ x ∈ c.reader.rest, e.span = x.span) := by
  obtain ⟨⟨rest, stop, limit⟩, last, requests⟩ := c
  obtain rfl : stop = source.utf8ByteSize := hstop
  cases rest with
  | nil => exact .inr ⟨_, _, word_of_error (Reader.word_of_nil rfl), .stop, rfl, .inl rfl⟩
  | cons x rest =>
    have hmem : x ∈ Source.lexemes source := hrest.subset List.mem_cons_self
    cases x with
    | stray w =>
      exact .inr ⟨_, _, word_of_error (Reader.word_of_stray rfl), .stray hmem, rfl,
        .inr ⟨_, List.mem_cons_self, rfl⟩⟩
    | word w =>
      by_cases hw : w.text.utf8ByteSize ≤ limit
      · have hordered := (Source.lexemes_ordered source).sublist hrest.sublist
        have hahead := (List.pairwise_cons.1 hordered).1
        refine .inl ⟨w, _, word_of_ok (Reader.word_of_le rfl hw), hmem,
          ⟨rfl, ?_, ⟨w, hmem, rfl⟩, le_rfl, hahead⟩, rfl, List.mem_cons_self⟩
        exact (List.suffix_cons _ _).trans hrest
      · refine .inr ⟨_, _, word_of_error (Reader.word_of_lt rfl (Nat.lt_of_not_le hw)),
          .word hmem nofun nofun ⟨nofun, ?_⟩, rfl, .inr ⟨_, List.mem_cons_self, rfl⟩⟩
        rintro length limit ⟨⟩
        rfl

namespace Meets

variable {A : Nat → α → Prop} {E : ConstructionError → Prop}

/-- **A request for a word** gives one that stands behind what was read before. -/
theorem word : Meets source k
    (fun j w => Source.HasWord source w ∧ k < w.span.start ∧ w.span.start = j)
    (·.Since source k) Construct.word := by
  intro c hc
  have hk := hc.reached
  rcases word_cases hc.stop hc.rest with ⟨w, c', hword, hw, hc', hlast, hmem⟩ |
    ⟨e, c', hword, hplace, hframes, hspan⟩
  · rw [hword]
    have hahead := hc.ahead _ hmem
    simp only [Lexeme.span] at hahead
    refine .ok ⟨hw, by omega, by rw [hlast]⟩ (hc'.mono hahead.le)
  · rw [hword]
    obtain ⟨cause, span, frames⟩ := e
    obtain rfl : frames = [] := hframes
    refine .error (.of_place hplace ?_)
    have hsize := hc.le_size
    rcases hspan with hspan | ⟨x, hx, hspan⟩
    · simp only at hspan ⊢
      omega
    · have hahead := hc.ahead x hx
      simp only at hspan ⊢
      rw [hspan]
      omega

/-- A sequence that begins with a word. -/
theorem word_bind {f : Word → Construct α} (hE : ∀ e, e.Since source k → E e)
    (h : ∀ w, Source.HasWord source w → k < w.span.start → Meets source w.span.start A E (f w)) :
    Meets source k A E (Construct.word >>= f) := by
  refine (word.errors hE).bind fun j w _ hw => ?_
  obtain ⟨hword, hk, rfl⟩ := hw
  exact h w hword hk

end Meets

end Construct

end BehaviorEngine
