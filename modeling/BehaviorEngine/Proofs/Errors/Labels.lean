import BehaviorEngine.Error.Report
import BehaviorEngine.Proofs.Errors.Sources

/-!
The ranges of labels. A label takes over the range of a diagnostic, which counts bytes, but a report
counts characters. So a label marks the text that it is meant for exactly if all characters up to
the end of the text are ASCII characters; each byte that a character takes beyond its first moves
the label on by one character, which may take it beyond the end of the source.
-/

namespace BehaviorEngine

namespace Source

variable {cs ds : List Char}

/-- The bytes that characters take beyond one each. -/
def excess : List Char → Nat
  | [] => 0
  | c :: cs => c.utf8Size - 1 + excess cs

theorem excess_append : excess (cs ++ ds) = excess cs + excess ds := by
  induction cs with
  | nil => rw [List.nil_append, excess, Nat.zero_add]
  | cons c cs ih => rw [List.cons_append, excess, ih, excess, Nat.add_assoc]

theorem bytes_eq_length_add_excess (cs : List Char) : bytes cs = cs.length + excess cs := by
  induction cs with
  | nil => rfl
  | cons c cs ih =>
    have := c.utf8Size_pos
    rw [bytes_cons, ih, List.length_cons, excess]
    omega

/-- Only ASCII characters take one byte each. -/
theorem excess_eq_zero_iff : excess cs = 0 ↔ ∀ c ∈ cs, c.val ≤ 127 := by
  induction cs with
  | nil => simp [excess]
  | cons c cs ih =>
    have := c.utf8Size_pos
    have hone : c.utf8Size - 1 = 0 ↔ c.val ≤ 127 := by
      rw [← Char.utf8Size_eq_one_iff]
      omega
    rw [List.forall_mem_cons, ← ih, ← hone, excess, Nat.add_eq_zero_iff]

end Source

open Source

namespace Report

/-- The characters of a source in a range of characters. -/
def charactersIn (source : String) (range : Span) : List Char :=
  (source.toList.take range.stop).drop range.start

/-- A label is meant for `text`, which the source has between `before` and `after`: its range has
the numbers of the bytes there. -/
structure Label.MeantFor (l : Label) (source : String) (before text after : List Char) : Prop where
  source : source.toList = before ++ text ++ after
  range : l.range = ⟨bytes before, bytes before + bytes text⟩

namespace Label.MeantFor

variable {l : Label} {source : String} {before text after : List Char}

theorem of_hasAt {span : Span} {message word : String} (h : HasAt source span word) :
    ∃ before text after, text = word.toList ∧
      Label.MeantFor ⟨span, message⟩ source before text after := by
  obtain ⟨before, after, rfl, rfl⟩ := h
  exact ⟨before.toList, word.toList, after.toList, rfl, by simp, by simp [bytes_toList]⟩

/-- A label starts too late by the excess in front of its text, and stops too late by that of the
text too. -/
theorem range_eq (h : l.MeantFor source before text after) :
    l.range = ⟨before.length + excess before,
      before.length + text.length + excess (before ++ text)⟩ := by
  rw [h.range, bytes_eq_length_add_excess, bytes_eq_length_add_excess, excess_append, Span.mk.injEq]
  omega

/-- A label marks its text exactly if there are only ASCII characters up to its end. -/
theorem range_eq_iff (h : l.MeantFor source before text after) :
    l.range = ⟨before.length, before.length + text.length⟩ ↔ ∀ c ∈ before ++ text, c.val ≤ 127 := by
  rw [← excess_eq_zero_iff, h.range_eq, Span.mk.injEq, excess_append]
  omega

theorem charactersIn_eq (h : l.MeantFor source before text after)
    (hascii : ∀ c ∈ before ++ text, c.val ≤ 127) : charactersIn source l.range = text := by
  rw [charactersIn, h.range_eq_iff.2 hascii, h.source, ← List.length_append, List.take_left,
    List.drop_left]

/-- A label stays inside of the source if there is room for the excess behind its text. -/
theorem stop_le_iff (h : l.MeantFor source before text after) :
    l.range.stop ≤ source.length ↔ excess (before ++ text) ≤ after.length := by
  rw [h.range_eq, ← String.length_toList, h.source, List.length_append, List.length_append]
  exact Nat.add_le_add_iff_left

end Label.MeantFor

/-! ### The labels of an error -/

variable {σ : Type} {source : String} {e : ConstructionError}

/-- Each label of an error is meant for a text of the source: the one at fault, or the name of a
node around it. -/
theorem exists_meantFor (h : e.PointsInto source) {l : Label}
    (hl : l ∈ primaryLabel e.diagnostic :: relatedLabels e.diagnostic) :
    ∃ before text after, l.MeantFor source before text after := by
  rcases List.mem_cons.1 hl with rfl | hl
  · obtain ⟨text, htext, -⟩ := h.place.hasAt
    obtain ⟨before, text, after, -, hlabel⟩ := Label.MeantFor.of_hasAt htext
    exact ⟨before, text, after, hlabel⟩
  · obtain ⟨_, hr, rfl⟩ := List.mem_map.1 hl
    obtain ⟨f, hf, rfl⟩ := List.mem_map.1 hr
    obtain ⟨w, hw, hspan⟩ := h.words f hf
    obtain ⟨before, text, after, -, hlabel⟩ := Label.MeantFor.of_hasAt (hasAt_of_mem hw)
    exact ⟨before, text, after, hspan ▸ hlabel⟩

/-- **The labels of an error mark its texts in ASCII sources only.** Each label of a source that
describes no graph is meant for a text of it. The label marks just this text if only ASCII
characters stand up to the end of the text, and no other place does. Otherwise each byte that
a character takes beyond its first moves the label on by one character; the label stays inside of
the source exactly if as many characters stand behind the text. -/
theorem labels_of_ofSource_error (limits : Limits) (environment : Environment σ) (source : String)
    (e : ConstructionError) (h : Graph.ofSource limits environment source = .error e) :
    ∀ l ∈ primaryLabel e.diagnostic :: relatedLabels e.diagnostic, ∃ before text after,
      l.MeantFor source before text after ∧
      (l.range = ⟨before.length, before.length + text.length⟩ ↔
        ∀ c ∈ before ++ text, c.val ≤ 127) ∧
      ((∀ c ∈ before ++ text, c.val ≤ 127) →
        charactersIn source l.range = text ∧ l.range.stop ≤ source.length) ∧
      l.range = ⟨before.length + excess before,
        before.length + text.length + excess (before ++ text)⟩ ∧
      (l.range.stop ≤ source.length ↔ excess (before ++ text) ≤ after.length) := by
  intro l hl
  obtain ⟨before, text, after, hlabel⟩ := exists_meantFor (Graph.pointsInto_of_ofSource h) hl
  refine ⟨before, text, after, hlabel, hlabel.range_eq_iff, fun hascii => ?_, hlabel.range_eq,
    hlabel.stop_le_iff⟩
  refine ⟨hlabel.charactersIn_eq hascii, hlabel.stop_le_iff.2 ?_⟩
  rw [excess_eq_zero_iff.2 hascii]
  exact Nat.zero_le _

/-- A source with an option of a name that takes two bytes more than it has characters. -/
def largeSource : String := "1 größe 0 größe 1 s s s 0 0 t nowhere 0"

/-- The label at the state that does not exist reaches beyond the source, and the one at the option
starts and ends too late. -/
theorem labels_of_ofSource_error_large :
    let e : ConstructionError := ⟨.unresolved .state "nowhere", ⟨34, 41⟩,
      [⟨.state "s", ⟨26, 27⟩⟩, ⟨.option "größe", ⟨12, 19⟩⟩]⟩
    Graph.ofSource Limits.standard Engine.lamp largeSource = .error e ∧
    (∃ before text after, (primaryLabel e.diagnostic).MeantFor largeSource before text after ∧
      after.length < excess (before ++ text) ∧
      largeSource.length < (primaryLabel e.diagnostic).range.stop) ∧
    charactersIn largeSource ⟨34, 41⟩ = "ere 0".toList ∧
    charactersIn largeSource ⟨12, 19⟩ = "öße 1 s".toList := by
  intro e
  have herror : Graph.ofSource Limits.standard Engine.lamp largeSource = .error e :=
    Graph.ofSource_eq_error (by decide +kernel)
  obtain ⟨before, text, after, hlabel, -, -, -, hinside⟩ :=
    labels_of_ofSource_error _ _ _ _ herror (primaryLabel e.diagnostic) List.mem_cons_self
  have hbeyond : largeSource.length < (primaryLabel e.diagnostic).range.stop := by decide +kernel
  refine ⟨herror, ⟨before, text, after, hlabel, ?_, hbeyond⟩, by decide +kernel,
    by decide +kernel⟩
  exact Nat.lt_of_not_le (mt hinside.2 (Nat.not_le.2 hbeyond))

end Report

end BehaviorEngine
