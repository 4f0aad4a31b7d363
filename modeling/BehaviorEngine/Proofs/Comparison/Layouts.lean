import BehaviorEngine.Proofs.Comparison.Prefixes
import BehaviorEngine.Proofs.Errors.Sources

/-!
The layout of a source does not matter. Two sources that consist of the same words, with any blanks,
line breaks and comments between and around them, describe the same graph, or they are at fault at
the same word, in the same nodes: offsets in a source are passed on, but nothing depends on them.
-/

namespace BehaviorEngine

namespace Source

/-! ### Layouts -/

/-- **A layout of some words**: the characters of the words one after another, with blanks and
comments as they may stand between and around them. A comment goes up to the end of its line, a word
up to a blank; either may be the last. -/
inductive Layout : List Char → List String → Prop
  | nil : Layout [] []
  | blank {c : Char} {cs : List Char} {texts : List String} (hc : isBlank c = true)
      (h : Layout cs texts) : Layout (c :: cs) texts
  | comment {note cs : List Char} {texts : List String} (hnote : '\n' ∉ note)
      (h : Layout cs texts) : Layout ('/' :: '/' :: note ++ '\n' :: cs) texts
  | lastComment {note : List Char} (hnote : '\n' ∉ note) : Layout ('/' :: '/' :: note) []
  | word {w cs : List Char} {c : Char} {texts : List String} (hw : IsWord w)
      (hc : isBlank c = true) (h : Layout cs texts) :
      Layout (w ++ c :: cs) (String.ofList w :: texts)
  | lastWord {w : List Char} (hw : IsWord w) : Layout w [String.ofList w]

/-- No word is empty. -/
theorem Layout.ne_empty {cs : List Char} {texts : List String} (h : Layout cs texts) :
    ∀ t ∈ texts, 0 < t.utf8ByteSize := by
  have hpos : ∀ {w : List Char}, IsWord w → 0 < (String.ofList w).utf8ByteSize := by
    intro w hw
    obtain ⟨c, cs, rfl⟩ := List.exists_cons_of_ne_nil hw.ne_nil
    have hsize : 0 < c.utf8Size := Char.utf8Size_pos c
    have hbytes := bytes_cons c cs
    rw [bytes] at hbytes
    omega
  induction h with
  | nil | lastComment => exact List.forall_mem_nil _
  | blank _ _ ih | comment _ _ ih => exact ih
  | word hw _ _ ih => exact List.forall_mem_cons.2 ⟨hpos hw, ih⟩
  | lastWord hw => exact List.forall_mem_singleton.2 (hpos hw)

/-- A scan between words passes over a comment. -/
theorem scan_comment {note : List Char} (h : '\n' ∉ note) (here : Nat) :
    scan .between here ('/' :: '/' :: note) = [] := by
  have hnote : '\n' ∉ '/' :: note := by simp [h]
  rw [scan]
  exact scan_inComment hnote _

/-- The words of a layout are read. -/
theorem Layout.texts_scan {cs : List Char} {texts : List String} (h : Layout cs texts)
    (here : Nat) : (scan .between here cs).map Lexeme.text? = texts.map some := by
  have htext : ∀ (w : List Char) (start stop : Nat),
      (Lexeme.word (wordOf start w.reverse stop)).text? = some (String.ofList w) := by
    intro w start stop
    rw [wordOf, List.reverse_reverse]
    rfl
  induction h generalizing here with
  | nil => rfl
  | blank hc _ ih =>
    rw [scan_blank hc]
    exact ih _
  | comment hnote _ ih =>
    rw [scan_append, scan_comment hnote]
    exact ih _
  | lastComment hnote =>
    rw [scan_comment hnote]
    rfl
  | word hw hc _ ih =>
    rw [scan_word hw, scan]
    simp only [hc, if_true, List.map_cons, htext, ih]
  | @lastWord w hw =>
    have hscan := scan_word hw here []
    rw [List.append_nil] at hscan
    rw [hscan, scan, List.map_singleton, htext]
    rfl

/-- Some characters bring a scan to a position. -/
def Position.After (front cs : List Char) : Position → Prop
  | .between => front = []
  | .inWord _ characters => front = characters.reverse ∧ IsWord front
  -- The second slash may still be to come.
  | .inComment => ∃ note, front = '/' :: note ∧ '\n' ∉ note ∧ (note ++ cs).head? = some '/'

/-- Characters in which nothing but words is read are a layout of these words. -/
theorem layout_of_texts_scan {p : Position} {f cs : List Char} (hp : p.After f cs)
    {here : Nat} {texts : List String}
    (h : (scan p here cs).map Lexeme.text? = texts.map some) : Layout (f ++ cs) texts := by
  induction cs generalizing p f here texts with
  | nil =>
    rw [List.append_nil]
    cases p with
    | between =>
      obtain rfl : f = [] := hp
      obtain rfl := List.map_eq_nil_iff.1 h.symm
      exact .nil
    | inWord start characters =>
      obtain ⟨rfl, hw⟩ := hp
      obtain ⟨t, ts, rfl, ht, hts⟩ := List.map_eq_cons_iff.1 h.symm
      obtain rfl := List.map_eq_nil_iff.1 hts
      obtain rfl : t = String.ofList characters.reverse := Option.some_inj.1 ht
      exact .lastWord hw
    | inComment =>
      obtain ⟨note, rfl, hnote, hhead⟩ := hp
      obtain rfl := List.map_eq_nil_iff.1 h.symm
      rw [List.append_nil] at hhead
      obtain ⟨note, rfl⟩ := List.head?_eq_some_iff.1 hhead
      exact .lastComment fun hmem => hnote (List.mem_cons_of_mem _ hmem)
  | cons c cs ih =>
    cases p with
    | between =>
      obtain rfl : f = [] := hp
      simp only [scan] at h
      split_ifs at h with hblank hslash hnext
      · exact .blank hblank (ih (p := .between) rfl h)
      · subst hslash
        exact ih (p := .inComment) (f := ['/']) ⟨[], rfl, by simp, hnext⟩ h
      · -- A stray slash is no word.
        obtain ⟨t, ts, rfl, ht, -⟩ := List.map_eq_cons_iff.1 h.symm
        cases ht
      · have hw : IsWord [c] := ⟨List.cons_ne_nil _ _, by simpa using hblank, by simpa using hslash⟩
        exact ih (p := .inWord here [c]) (f := [c]) ⟨rfl, hw⟩ h
    | inWord start characters =>
      obtain ⟨rfl, hw⟩ := hp
      simp only [scan] at h
      split_ifs at h with hblank
      · obtain ⟨t, ts, rfl, ht, hts⟩ := List.map_eq_cons_iff.1 h.symm
        obtain rfl : t = String.ofList characters.reverse := Option.some_inj.1 ht
        exact .word hw hblank (ih (p := .between) rfl hts.symm)
      · have hrest := ih (p := .inWord start (c :: characters)) (f := characters.reverse ++ [c])
          ⟨by simp, hw.concat (by simpa using hblank)⟩ h
        rwa [List.append_assoc] at hrest
    | inComment =>
      obtain ⟨note, rfl, hnote, hhead⟩ := hp
      rw [scan] at h
      by_cases hc : c = '\n'
      · subst hc
        rw [if_pos rfl] at h
        cases note with
        | nil => cases hhead
        | cons d note =>
          obtain rfl : d = '/' := Option.some_inj.1 hhead
          exact .comment (fun hmem => hnote (List.mem_cons_of_mem _ hmem))
            (ih (p := .between) rfl h)
      · rw [if_neg hc] at h
        have hnote' : '\n' ∉ note ++ [c] := by simp [hnote, Ne.symm hc]
        have hrest := ih (p := .inComment) (f := '/' :: note ++ [c])
          ⟨note ++ [c], rfl, hnote', by simpa using hhead⟩ h
        simpa using hrest

/-- **The sources in which nothing but some words is read are the layouts of these words.** -/
theorem spells_iff_layout {source : String} {texts : List String} :
    Spells source texts ↔ Layout source.toList texts :=
  spells_iff.trans ⟨fun h => layout_of_texts_scan (p := .between) (f := []) rfl h,
    fun h => h.texts_scan 0⟩

/-! ### Corresponding places -/

/-- Two ranges are those of the words with one number in two sources. -/
def SameWord (source source' : String) (s s' : Span) : Prop :=
  ∃ (i : Nat) (w w' : Word), (lexemes source)[i]? = some (.word w) ∧
    (lexemes source')[i]? = some (.word w') ∧ s = w.span ∧ s' = w'.span

/-- Two ranges correspond in two layouts of the same words. -/
inductive Corresponds (source source' : String) : Span → Span → Prop
  /-- Nothing has been read yet. -/
  | start : Corresponds source source' ⟨0, 0⟩ ⟨0, 0⟩
  | word {s s' : Span} (h : SameWord source source' s s') : Corresponds source source' s s'
  | stop : Corresponds source source' ⟨source.utf8ByteSize, source.utf8ByteSize⟩
      ⟨source'.utf8ByteSize, source'.utf8ByteSize⟩

variable {source source' : String} {s s' : Span}

/-- What corresponds to a word is the word with the same number. -/
theorem Corresponds.sameWord (h : Corresponds source source' s s') (hs : s.start < s.stop) :
    SameWord source source' s s' := by
  cases h with
  | start => exact absurd hs (Nat.lt_irrefl _)
  | word h => exact h
  | stop => exact absurd hs (Nat.lt_irrefl _)

/-- Lexemes of two layouts of the same words correspond. -/
theorem like_of_spells {texts : List String} (h : Spells source texts)
    (h' : Spells source' texts) :
    List.Forall₂ (Lexeme.Like (Corresponds source source')) (lexemes source) (lexemes source') := by
  obtain ⟨words, hwords, rfl⟩ := h
  obtain ⟨words', hwords', htexts⟩ := h'
  have hlength : words.length = words'.length := by
    simpa using (congrArg List.length htexts).symm
  rw [hwords, hwords', List.forall₂_map_left_iff, List.forall₂_map_right_iff,
    List.forall₂_iff_get]
  refine ⟨hlength, fun i hi hi' => ?_⟩
  have htext : words[i].text = words'[i].text := by
    have hget := congrArg (fun ts : List String => ts[i]?) htexts
    simpa [hi, hi'] using hget.symm
  refine .word htext (.word ⟨i, words[i], words'[i], ?_, ?_, rfl, rfl⟩)
  · rw [hwords]
    simp [hi]
  · rw [hwords']
    simp [hi']

/-- The range of a word is not empty. -/
theorem Layout.start_lt_stop {texts : List String} (h : Layout source.toList texts) {w : Word}
    (hw : HasWord source w) : w.span.start < w.span.stop := by
  obtain ⟨words, hwords, htexts⟩ := spells_iff_layout.2 h
  have hmem : w ∈ words := by
    rw [HasWord, hwords] at hw
    obtain ⟨w', hw', heq⟩ := List.mem_map.1 hw
    cases heq
    exact hw'
  have htext : w.text ∈ texts := htexts ▸ List.mem_map_of_mem hmem
  have hsize := h.ne_empty w.text htext
  have hstop := (hasAt_of_mem hw).stop_eq
  simp only [Lexeme.span, Lexeme.text] at hstop
  omega

/-- A cause stands at the end of a layout or at a word. -/
theorem Layout.start_lt_stop_of_standsAt {texts : List String} (h : Layout source.toList texts)
    {cause : Cause} (hcause : cause.StandsAt source s) (hend : cause ≠ .unexpectedEnd) :
    s.start < s.stop := by
  cases hcause with
  | stop => exact absurd rfl hend
  | stray hw =>
    obtain ⟨words, hwords, -⟩ := spells_iff_layout.2 h
    rw [hwords] at hw
    obtain ⟨_, _, heq⟩ := List.mem_map.1 hw
    cases heq
  | word hw => exact h.start_lt_stop hw

end Source

/-! ### Two layouts side by side -/

/-- Two cursors have the same words in front of them. -/
structure Cursor.Abreast (source source' : String) (c c' : Cursor) : Prop where
  rest : List.Forall₂ (Lexeme.Like (Source.Corresponds source source')) c.reader.rest c'.reader.rest
  limit : c'.reader.limit = c.reader.limit
  last : Source.Corresponds source source' c.last c'.last
  stop : c.reader.stop = source.utf8ByteSize
  stop' : c'.reader.stop = source'.utf8ByteSize

namespace Comparison

open Construct

variable {source source' : String}

/-- Two layouts of the same words are compared. Nothing is excused. -/
def abreast (source source' : String) : Comparison where
  place := Source.Corresponds source source'
  cursor := Cursor.Abreast source source'
  excused _ _ := False

/-- Words are requested alike, also where there are none. -/
theorem abreast_lawful : (abreast source source').Lawful where
  word := by
    rintro ⟨⟨rest, _, _⟩, last, _⟩ ⟨⟨rest', _, limit⟩, last', _⟩ ⟨hrest, rfl, hlast, rfl, rfl⟩
    cases hrest with
    | nil =>
      rw [word_of_error (Reader.word_of_nil rfl), word_of_error (Reader.word_of_nil rfl)]
      exact .error ⟨rfl, .stop, .nil⟩
    | cons h hrest =>
      cases h with
      | @word w w' ht hs =>
        by_cases hw : w.text.utf8ByteSize ≤ limit
        · rw [word_of_ok (Reader.word_of_le rfl hw), word_of_ok (Reader.word_of_le rfl (ht ▸ hw))]
          exact .ok ⟨ht, hs⟩ ⟨hrest, rfl, hs, rfl, rfl⟩
        · have hlong := Nat.lt_of_not_le hw
          rw [word_of_error (Reader.word_of_lt rfl hlong),
            word_of_error (Reader.word_of_lt rfl (ht ▸ hlong))]
          exact .error ⟨by rw [ht], hs, .nil⟩
      | stray ht hs =>
        rw [word_of_error (Reader.word_of_stray rfl), word_of_error (Reader.word_of_stray rfl)]
        exact .error ⟨congrArg Cause.unrecognizedInput ht, hs, .nil⟩
  last _ _ h := h.last

/-- Words that are left are refused alike. -/
theorem finish : (abreast source source').Beside (fun _ _ => True) Construct.finish
    Construct.finish := by
  rintro ⟨⟨rest, _, limit⟩, last, _⟩ ⟨⟨rest', _, _⟩, last', _⟩ ⟨hrest, rfl, hlast, rfl, rfl⟩
  cases hrest with
  | nil => exact .ok trivial ⟨.nil, rfl, hlast, rfl, rfl⟩
  | cons h hrest =>
    cases h with
    | word ht hs => exact .error ⟨congrArg Cause.trailingInput ht, hs, .nil⟩
    | stray ht hs => exact .error ⟨congrArg Cause.unrecognizedInput ht, hs, .nil⟩

theorem graph {σ : Type} (limits : Limits) (environment : Environment σ) :
    (abreast source source').Beside Eq (Construct.graph limits environment)
      (Construct.graph limits environment) := by
  rw [Construct.graph_eq]
  exact (openGraph abreast_lawful (.refl limits) environment).seq fun g =>
    finish.bind fun _ _ _ => .pure rfl

end Comparison

namespace Graph

variable {σ : Type} {source source' : String} {texts : List String}

/-- Two layouts of the same words are at corresponding places at the start. -/
theorem abreast_ofSource (h : Source.Spells source texts) (h' : Source.Spells source' texts)
    (limits : Limits) : Cursor.Abreast source source' (Cursor.ofSource source limits)
      (Cursor.ofSource source' limits) :=
  ⟨Source.like_of_spells h h', rfl, .start, rfl, rfl⟩

/-- **Layout is irrelevant.** Two layouts of the same words describe the same graph, or neither
describes one. Then the errors have the same cause, and they stand at the end of both sources or at
the word with the same number; the nodes around them are the same ones, named by words with the same
numbers. -/
theorem ofSource_layout (limits : Limits) (environment : Environment σ) (source source' : String)
    (texts : List String) (h : Source.Layout source.toList texts)
    (h' : Source.Layout source'.toList texts) :
    (∃ g, Graph.ofSource limits environment source = .ok g ∧
      Graph.ofSource limits environment source' = .ok g) ∨
    ∃ e e', Graph.ofSource limits environment source = .error e ∧
      Graph.ofSource limits environment source' = .error e' ∧ e.cause = e'.cause ∧
      (e.cause = .unexpectedEnd → e.span = ⟨source.utf8ByteSize, source.utf8ByteSize⟩ ∧
        e'.span = ⟨source'.utf8ByteSize, source'.utf8ByteSize⟩) ∧
      (e.cause ≠ .unexpectedEnd → Source.SameWord source source' e.span e'.span) ∧
      List.Forall₂ (fun f f' => f.node = f'.node ∧ Source.SameWord source source' f.span f'.span)
        e.frames e'.frames := by
  have hbeside := Comparison.graph limits environment _ _ (abreast_ofSource
    (Source.spells_iff_layout.2 h) (Source.spells_iff_layout.2 h') limits)
  have hpoints : ∀ e, Graph.ofSource limits environment source = .error e →
      e.PointsInto source := fun e he => pointsInto_of_ofSource he
  have hpoints' : ∀ e, Graph.ofSource limits environment source' = .error e →
      e.PointsInto source' := fun e he => pointsInto_of_ofSource he
  unfold Graph.ofSource at hpoints hpoints' ⊢
  generalize (Construct.graph limits environment).runOn (Cursor.ofSource source limits) = r,
    (Construct.graph limits environment).runOn (Cursor.ofSource source' limits) = r'
    at hbeside hpoints hpoints' ⊢
  cases hbeside with
  | @ok g _ c c' hg =>
    subst hg
    exact .inl ⟨g, rfl, rfl⟩
  | excused he => exact he.elim
  | @error e e' _ _ he =>
    have hp := hpoints e rfl
    have hp' := hpoints' e' rfl
    refine .inr ⟨e, e', rfl, rfl, he.cause, fun hend => ⟨?_, ?_⟩, fun hend => ?_, ?_⟩
    · exact (hend ▸ hp.place).span_eq_stop
    · exact (he.cause.symm.trans hend ▸ hp'.place).span_eq_stop
    · exact he.place.sameWord (h.start_lt_stop_of_standsAt hp.place hend)
    · refine ((List.forall₂_and_left _ _).2 ⟨hp.words, he.frames⟩).imp fun f f' hff' => ?_
      obtain ⟨⟨w, hw, hspan⟩, hnode, hplace⟩ := hff'
      exact ⟨hnode, Source.Corresponds.sameWord hplace (hspan ▸ h.start_lt_stop hw)⟩

/-- The words of an option that runs a behavior nobody has registered. -/
def strangeTexts : List String :=
  ["1", "main", "0", "main", "1", "s", "s", "s", "0", "1", "a", "blink", "0", "t", "s", "0"]

/-- A layout of these words in one line. -/
def strangeLine : String := "1 main 0 main 1 s s s 0 1 a blink 0 t s 0"

/-- A layout of these words with comments. -/
def strangeLines : String :=
  "// one option\n1\tmain 0\r\nmain 1 s s //\n\n  s 0 1 a blink 0 // unknown\nt s 0 // done"

theorem ofSource_layout_strange :
    Source.Layout strangeLine.toList strangeTexts ∧
    Source.Layout strangeLines.toList strangeTexts ∧
    ∃ e e', Graph.ofSource Limits.standard Engine.lamp strangeLine = .error e ∧
      Graph.ofSource Limits.standard Engine.lamp strangeLines = .error e' ∧
      e.cause = .unresolved .basicBehavior "blink" ∧ e.cause = e'.cause ∧
      Source.SameWord strangeLine strangeLines e.span e'.span := by
  have h : Source.Layout strangeLine.toList strangeTexts :=
    Source.spells_iff_layout.1 (by decide +kernel)
  have h' : Source.Layout strangeLines.toList strangeTexts :=
    Source.spells_iff_layout.1 (by decide +kernel)
  have hcomputed : ((Graph.ofSource Limits.standard Engine.lamp strangeLine).map fun _ =>
      ()).mapError (·.cause) = .error (.unresolved .basicBehavior "blink") := by
    decide +kernel
  refine ⟨h, h', ?_⟩
  rcases ofSource_layout Limits.standard Engine.lamp _ _ _ h h' with ⟨g, hg, -⟩ |
    ⟨e, e', he, he', hcause, -, hword, -⟩
  · rw [hg] at hcomputed
    cases hcomputed
  · rw [he] at hcomputed
    have hunknown : e.cause = .unresolved .basicBehavior "blink" := Except.error.inj hcomputed
    exact ⟨e, e', he, he', hunknown, hcause, hword (by rw [hunknown]; nofun)⟩

end Graph

end BehaviorEngine
