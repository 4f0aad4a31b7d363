import BehaviorEngine.Proofs.LongestMatch
import BehaviorEngine.Proofs.Source.Places

/-!
The words of a source as a lexer reads them. A scan finds the words that a lexer finds by longest
matches, up to where the lexer gets stuck: there the scan finds a stray slash.
-/

namespace BehaviorEngine

namespace Source

/-! ### Tokens -/

/-- What a lexer finds in a source. Only words are read. -/
inductive Token where
  | gap
  | comment
  | word
  deriving DecidableEq, Repr

namespace Token

/-- The texts that a token fits. -/
def Fits : Token → List Char → Prop
  | gap, text => text ≠ [] ∧ ∀ c ∈ text, isBlank c = true
  | comment, text => IsComment text
  | word, text => IsWord text

theorem Fits.ne_nil {t : Token} {text : List Char} (h : t.Fits text) : text ≠ [] := by
  cases t with
  | gap => exact h.1
  | comment => exact IsComment.ne_nil h
  | word => exact IsWord.ne_nil h

/-- The only token that a text with the given first character can be. -/
def ofFirst (c : Char) : Token :=
  if isBlank c then gap else if c = '/' then comment else word

theorem Fits.eq_ofFirst {t : Token} {c : Char} {cs : List Char} (h : t.Fits (c :: cs)) :
    t = ofFirst c := by
  cases t with
  | gap => simp [ofFirst, h.2 c List.mem_cons_self]
  | comment =>
    obtain rfl : '/' = c := (List.cons_prefix_cons.1 h.1).1
    decide
  | word =>
    have hslash : c ≠ '/' := fun heq => h.noSlash (congrArg some heq)
    simp [ofFirst, h.noBlank c List.mem_cons_self, hslash]

theorem Fits.unique {t u : Token} {text : List Char} (h : t.Fits text) (hu : u.Fits text) :
    t = u := by
  obtain ⟨c, cs, rfl⟩ := List.exists_cons_of_ne_nil h.ne_nil
  exact h.eq_ofFirst.trans hu.eq_ofFirst.symm

end Token

/-- The tokens of a source. -/
def lexicon : Lexicon Token where
  Fits := Token.Fits
  priority _ := 0
  top := 0
  priority_le _ := Nat.le_refl 0
  ne_nil := Token.Fits.ne_nil
  eq_of_priority h hu _ := h.unique hu

/-- The words among tokens that follow one another from an offset on, up to where the lexer is
stuck. -/
def gather (here : Nat) : List (Option (Token × List Char)) → List Word
  | [] | none :: _ => []
  | some (.word, text) :: ts =>
    ⟨String.ofList text, ⟨here, here + bytes text⟩⟩ :: gather (here + bytes text) ts
  | some (_, text) :: ts => gather (here + bytes text) ts

variable {here : Nat} {text rest cs : List Char} {c : Char}

/-! ### One token -/

/-- A word reaches up to a blank. -/
theorem word_ends (h : lexicon.Longest .word text rest) (hc : c ∈ rest.head?) :
    isBlank c = true := by
  by_contra hne
  rw [Bool.not_eq_true] at hne
  exact h.not_fits_concat hc .word (IsWord.concat h.fits hne)

/-- A lexer is stuck only at a slash that no second one follows. -/
theorem eq_slash_of_stuck (hne : cs ≠ []) (h : ∀ t text, text <+: cs → ¬lexicon.Fits t text) :
    ∃ rest, cs = '/' :: rest ∧ rest.head? ≠ some '/' := by
  obtain ⟨c, rest, rfl⟩ := List.exists_cons_of_ne_nil hne
  have hblank : isBlank c = false := Bool.eq_false_iff.2 fun hc =>
    h .gap [c] (by simp) ⟨List.cons_ne_nil _ _, by simpa using hc⟩
  obtain rfl : c = '/' := Classical.byContradiction fun hc =>
    h .word [c] (by simp) ⟨List.cons_ne_nil _ _, by simpa using hblank, by simpa using hc⟩
  refine ⟨rest, rfl, fun hnext => ?_⟩
  obtain ⟨rest, rfl⟩ := List.head?_eq_some_iff.1 hnext
  exact h .comment ['/', '/'] (by simp) ⟨List.prefix_rfl, by decide⟩

/-! ### The scan of a token -/

/-- Blanks are passed over. -/
theorem scan_blanks (h : ∀ c ∈ text, isBlank c = true) :
    scan .between here (text ++ rest) = scan .between (here + bytes text) rest := by
  induction text generalizing here with
  | nil => rfl
  | cons c cs ih =>
    obtain ⟨hc, hcs⟩ := List.forall_mem_cons.1 h
    rw [List.cons_append, scan_blank hc, ih hcs, bytes_cons, Nat.add_assoc]

/-- A comment is passed over up to the end of its line. -/
theorem scan_inComment_append (here : Nat) (h : '\n' ∉ text) (hend : ∀ c ∈ rest.head?, c = '\n') :
    scan .inComment here (text ++ rest) = scan .between (here + bytes text) rest := by
  cases rest with
  | nil =>
    rw [List.append_nil, scan_inComment h]
    rfl
  | cons c cs =>
    obtain rfl := hend c rfl
    rw [scan_append, scan_inComment h, scan_blank (by decide)]
    rfl

/-- A word is finished where a blank follows it. -/
theorem scan_word_append (h : IsWord text) (hend : ∀ c ∈ rest.head?, isBlank c = true) :
    scan .between here (text ++ rest) =
      .word ⟨String.ofList text, ⟨here, here + bytes text⟩⟩ ::
        scan .between (here + bytes text) rest := by
  have hword : wordOf here text.reverse (here + bytes text) =
      ⟨String.ofList text, ⟨here, here + bytes text⟩⟩ := by rw [wordOf, List.reverse_reverse]
  rw [scan_word h, ← hword]
  cases rest with
  | nil => rfl
  | cons c cs =>
    have hc : isBlank c = true := hend c rfl
    simp only [scan, hc, if_true]

/-! ### The scan of all tokens -/

/-- **A scan finds the words that a lexer finds**, then a stray slash if the lexer gets stuck. -/
theorem scan_eq_gather {ts : List (Option (Token × List Char))} (h : lexicon.Lexes cs ts)
    (here : Nat) :
    ∃ xs, scan .between here cs = (gather here ts).map .word ++ xs ∧ (none ∉ ts → xs = []) ∧
      (none ∈ ts → ∃ w, .stray w ∈ xs) := by
  induction h generalizing here with
  | nil => exact ⟨[], rfl, fun _ => rfl, nofun⟩
  | @cons t text rest ts hlongest _ ih =>
    obtain ⟨xs, hscan, hnone, hstray⟩ := ih (here + bytes text)
    refine ⟨xs, ?_, fun h => hnone (by simpa using h), fun h => hstray (by simpa using h)⟩
    cases t with
    | gap =>
      simp only [gather]
      rw [scan_blanks hlongest.fits.2, hscan]
    | comment =>
      obtain ⟨body, rfl, hbody⟩ := IsComment.exists_body hlongest.fits
      have hrest := scan_inComment_append (here + '/'.utf8Size) hbody fun c hc =>
        hlongest.comment_ends (fun _ => Iff.rfl) hc
      simp only [gather]
      rw [← hscan, List.cons_append, bytes_cons, ← Nat.add_assoc]
      exact hrest
    | word =>
      simp only [gather]
      rw [scan_word_append hlongest.fits fun c hc => word_ends hlongest hc, hscan]
      rfl
  | stuck hne hnone =>
    obtain ⟨rest, rfl, hnext⟩ := eq_slash_of_stuck hne hnone
    refine ⟨scan .between here ('/' :: rest), rfl, by simp, fun _ => ?_⟩
    have hblank : isBlank '/' = false := by decide
    exact ⟨⟨"/", ⟨here, here + '/'.utf8Size⟩⟩, by simp [scan, hnext, hblank]⟩

/-- A lexer gets through a source in which a scan finds no stray slash, and finds the same words. -/
theorem lexes_of_lexemes {source : String} {words : List Word}
    (h : lexemes source = words.map .word) :
    ∃ ts, (∀ ts', lexicon.Lexes source.toList ts' ↔ ts' = ts) ∧ none ∉ ts ∧
      gather 0 ts = words := by
  obtain ⟨ts, hts, hunique⟩ := lexicon.exists_lexes_iff source.toList
  obtain ⟨xs, hscan, hnone, hstray⟩ := scan_eq_gather hts 0
  have hmem : none ∉ ts := by
    intro hmem
    obtain ⟨w, hw⟩ := hstray hmem
    have hword : .stray w ∈ words.map Lexeme.word := by
      rw [← h, lexemes, hscan]
      exact List.mem_append_right _ hw
    simp at hword
  refine ⟨ts, hunique, hmem, ?_⟩
  rw [lexemes, hscan, hnone hmem, List.append_nil] at h
  exact List.map_injective_iff.2 (fun _ _ => Lexeme.word.inj) h

end Source

end BehaviorEngine
