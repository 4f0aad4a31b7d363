import Mathlib.Data.List.Basic

/-!
Lexers that take the longest match. A lexicon tells which texts each kind of token fits; a lexer
takes the longest text from where it stands on that some kind fits, and goes on behind it. What it
finds in characters is unique, and there is a longest match wherever some kind fits at all. Comments
that reach up to the end of a line are common to all lexicons.
-/

namespace BehaviorEngine

/-- The texts of kinds of tokens. No kind fits the empty text, and of two kinds that fit the same
text one has the higher priority. -/
structure Lexicon (K : Type) where
  Fits : K → List Char → Prop
  priority : K → Nat
  top : Nat
  priority_le : ∀ k, priority k ≤ top
  ne_nil : ∀ {k text}, Fits k text → text ≠ []
  eq_of_priority : ∀ {k k' text}, Fits k text → Fits k' text → priority k = priority k' → k = k'

/-- Two slashes, and what stands behind them on a line. -/
def IsComment (text : List Char) : Prop := ['/', '/'] <+: text ∧ '\n' ∉ text

namespace IsComment

variable {text : List Char} {c : Char}

theorem ne_nil (h : IsComment text) : text ≠ [] := by
  rintro rfl
  exact absurd (List.prefix_nil.1 h.1) (List.cons_ne_nil _ _)

theorem concat (h : IsComment text) (hc : c ≠ '\n') : IsComment (text ++ [c]) := by
  refine ⟨h.1.trans (List.prefix_append _ _), ?_⟩
  simp [h.2, hc.symm]

theorem exists_body (h : IsComment text) :
    ∃ body, text = '/' :: '/' :: body ∧ '\n' ∉ '/' :: body := by
  obtain ⟨⟨body, rfl⟩, hnew⟩ := h
  exact ⟨body, rfl, fun hmem => hnew (List.mem_cons_of_mem _ hmem)⟩

end IsComment

namespace Lexicon

variable {K : Type} {L : Lexicon K} {k k' : K} {text text' rest rest' cs : List Char} {c : Char}

/-- The longest match in front of `rest` is `text`: nothing fits a longer text from here on, and
nothing of a higher priority fits the same text. -/
structure Longest (L : Lexicon K) (k : K) (text rest : List Char) : Prop where
  fits : L.Fits k text
  longest : ∀ k' text', text' <+: text ++ rest → L.Fits k' text' →
    text'.length < text.length ∨ text' = text ∧ L.priority k' ≤ L.priority k

/-- The tokens that a lexer finds in characters. Where nothing fits it finds none, and stops. -/
inductive Lexes (L : Lexicon K) : List Char → List (Option (K × List Char)) → Prop where
  | nil : Lexes L [] []
  | cons {k : K} {text rest : List Char} {ts : List (Option (K × List Char))} :
    L.Longest k text rest → Lexes L rest ts → Lexes L (text ++ rest) (some (k, text) :: ts)
  | stuck {cs : List Char} :
    cs ≠ [] → (∀ k text, text <+: cs → ¬L.Fits k text) → Lexes L cs [none]

namespace Longest

theorem unique (h : L.Longest k text rest) (h' : L.Longest k' text' rest')
    (heq : text ++ rest = text' ++ rest') : k = k' ∧ text = text' ∧ rest = rest' := by
  have hle := h.longest k' text' (heq ▸ List.prefix_append _ _) h'.fits
  have hge := h'.longest k text (heq ▸ List.prefix_append _ _) h.fits
  obtain ⟨rfl, hpriority⟩ : text = text' ∧ L.priority k = L.priority k' := by
    rcases hle with hlt | ⟨rfl, hle⟩
    · rcases hge with hgt | ⟨rfl, -⟩ <;> omega
    · rcases hge with hgt | ⟨-, hge⟩ <;> [omega; exact ⟨rfl, by omega⟩]
  exact ⟨L.eq_of_priority h.fits h'.fits hpriority, rfl, List.append_cancel_left heq⟩

/-- Nothing fits a longest match with one more character. -/
theorem not_fits_concat (h : L.Longest k text rest) (hc : c ∈ rest.head?) (k' : K) :
    ¬L.Fits k' (text ++ [c]) := by
  intro hfits
  obtain ⟨cs, rfl⟩ : ∃ cs, rest = c :: cs := List.head?_eq_some_iff.1 hc
  rcases h.longest k' (text ++ [c]) (by simp) hfits with hlt | ⟨heq, -⟩
  · rw [List.length_append, List.length_singleton] at hlt
    omega
  · simp at heq

/-- A comment reaches up to the end of its line. -/
theorem comment_ends (h : L.Longest k text rest) (hk : ∀ text, L.Fits k text ↔ IsComment text)
    (hc : c ∈ rest.head?) : c = '\n' := by
  by_contra hne
  exact h.not_fits_concat hc k ((hk _).2 (((hk _).1 h.fits).concat hne))

end Longest

/-- Where something fits, there is a longest match. -/
theorem exists_longest {k : K} {text cs : List Char} (h : L.Fits k text) (htext : text <+: cs) :
    ∃ k' text' rest, cs = text' ++ rest ∧ L.Longest k' text' rest := by
  by_cases hbest : ∀ k' text', text' <+: cs → L.Fits k' text' →
      text'.length < text.length ∨ text' = text ∧ L.priority k' ≤ L.priority k
  · obtain ⟨rest, rfl⟩ := htext
    exact ⟨k, text, rest, rfl, h, hbest⟩
  · simp only [not_forall, not_or, not_and, Nat.not_lt, Nat.not_le, exists_prop] at hbest
    obtain ⟨k', text', htext', hfits, hle, hpriority⟩ := hbest
    -- A better match is longer, or has the same text and a higher priority.
    have hlength := htext'.length_le
    have htop := L.priority_le k'
    have hbetter : text.length < text'.length ∨
        text.length = text'.length ∧ L.priority k < L.priority k' := by
      rcases Nat.lt_or_eq_of_le hle with hlt | heq
      · exact .inl hlt
      · have := (List.prefix_of_prefix_length_le htext htext' (Nat.le_of_eq heq)).eq_of_length heq
        exact .inr ⟨heq, hpriority this.symm⟩
    exact exists_longest hfits htext'
termination_by (cs.length - text.length, L.top - L.priority k)
decreasing_by
  rcases hbetter with hlt | ⟨heq, hlt⟩
  · exact .left _ _ (by omega)
  · rw [heq]
    exact .right _ (by omega)

/-- **What a lexer finds.** -/
theorem exists_lexes (L : Lexicon K) (cs : List Char) : ∃ ts, L.Lexes cs ts := by
  match cs with
  | [] => exact ⟨[], .nil⟩
  | c :: cs =>
    by_cases hstuck : ∀ k text, text <+: c :: cs → ¬L.Fits k text
    · exact ⟨[none], .stuck (List.cons_ne_nil c cs) hstuck⟩
    · simp only [not_forall, not_not, exists_prop] at hstuck
      obtain ⟨_, _, htext, hfits⟩ := hstuck
      obtain ⟨k, text, rest, heq, hlongest⟩ := exists_longest hfits htext
      have hlt : rest.length < (c :: cs).length := by
        have := List.length_pos_iff.2 (L.ne_nil hlongest.fits)
        rw [heq, List.length_append]
        omega
      obtain ⟨ts, hts⟩ := exists_lexes L rest
      exact ⟨some (k, text) :: ts, heq ▸ .cons hlongest hts⟩
termination_by cs.length
decreasing_by exact hlt

namespace Lexes

variable {ts ts' : List (Option (K × List Char))}

/-- **What a lexer finds is unique.** -/
theorem unique (h : L.Lexes cs ts) (h' : L.Lexes cs ts') : ts' = ts := by
  induction h generalizing ts' with
  | nil =>
    generalize hcs : [] = cs at h'
    cases h' with
    | nil => rfl
    | cons hlongest _ =>
      exact absurd (List.append_eq_nil_iff.1 hcs.symm).1 (L.ne_nil hlongest.fits)
    | stuck hne _ => exact absurd hcs.symm hne
  | @cons k text rest ts hlongest _ ih =>
    generalize hcs : text ++ rest = cs at h'
    cases h' with
    | nil => exact absurd (List.append_eq_nil_iff.1 hcs).1 (L.ne_nil hlongest.fits)
    | cons hlongest' htail =>
      obtain ⟨rfl, rfl, rfl⟩ := hlongest.unique hlongest' hcs
      rw [ih htail]
    | stuck _ hnone =>
      exact absurd hlongest.fits (hnone k text (hcs ▸ List.prefix_append _ _))
  | stuck hne hnone =>
    cases h' with
    | nil => exact absurd rfl hne
    | @cons k text _ _ hlongest _ =>
      exact absurd hlongest.fits (hnone k text (List.prefix_append _ _))
    | stuck _ _ => rfl

end Lexes

/-- The tokens that a lexer finds, and no others. -/
theorem exists_lexes_iff (L : Lexicon K) (cs : List Char) :
    ∃ ts, L.Lexes cs ts ∧ ∀ ts', L.Lexes cs ts' ↔ ts' = ts := by
  obtain ⟨ts, hts⟩ := L.exists_lexes cs
  exact ⟨ts, hts, fun ts' => ⟨hts.unique, fun heq => heq ▸ hts⟩⟩

end Lexicon

end BehaviorEngine
