import BehaviorEngine.Proofs.Source.Lexemes

/-!
Where the lexemes of a source stand. The text of a lexeme is what the source has at its range of
bytes, and lexemes follow one another: each starts behind the start of the one before it.
-/

namespace BehaviorEngine

/-- The place where a lexeme stands. -/
def Lexeme.span : Lexeme → Span
  | word w => w.span
  | stray w => w.span

/-- The characters of a lexeme. -/
def Lexeme.text : Lexeme → String
  | word w => w.text
  | stray w => w.text

namespace Source

/-- A source has a text at a range of bytes: so many bytes of it come before the text, and the range
is as long as the text. -/
def HasAt (source : String) (s : Span) (text : String) : Prop :=
  ∃ before after, source = before ++ text ++ after ∧
    s = ⟨before.utf8ByteSize, before.utf8ByteSize + text.utf8ByteSize⟩

/-- A word is one of the words of a source. -/
def HasWord (source : String) (w : Word) : Prop := .word w ∈ lexemes source

namespace HasAt

variable {source text other : String} {s : Span}

theorem stop_eq (h : HasAt source s text) : s.stop = s.start + text.utf8ByteSize := by
  obtain ⟨before, after, -, rfl⟩ := h
  rfl

theorem stop_le (h : HasAt source s text) : s.stop ≤ source.utf8ByteSize := by
  obtain ⟨before, after, rfl, rfl⟩ := h
  simp only [String.utf8ByteSize_append]
  omega

/-- A source has its end at the empty range there. -/
theorem stop (source : String) :
    HasAt source ⟨source.utf8ByteSize, source.utf8ByteSize⟩ "" :=
  ⟨source, "", by simp, by simp⟩

end HasAt

/-! ### The scan -/

theorem bytes_append (cs ds : List Char) : bytes (cs ++ ds) = bytes cs + bytes ds := by
  rw [bytes, String.ofList_append, String.utf8ByteSize_append]
  rfl

/-- Some characters stand among others at a range of bytes. -/
def Stands (all : List Char) (x : Lexeme) : Prop :=
  ∃ before after, all = before ++ x.text.toList ++ after ∧
    x.span = ⟨bytes before, bytes before + bytes x.text.toList⟩

/-- A scan stands behind the characters `before`: in a word, these end with the characters of the
word so far, of which there is at least one. -/
def Position.Behind (before : List Char) : Position → Prop
  | .inWord start characters => ∃ front, before = front ++ characters.reverse ∧
      start = bytes front ∧ characters ≠ []
  | _ => True

/-- The word that a scan has read stands where it was read. -/
theorem stands_wordOf {before : List Char} {start : Nat} {characters : List Char}
    (h : Position.Behind before (.inWord start characters)) (cs : List Char) :
    Stands (before ++ cs) (.word (wordOf start characters (bytes before))) := by
  obtain ⟨front, rfl, rfl, -⟩ := h
  refine ⟨front, cs, by simp [Lexeme.text, wordOf], ?_⟩
  simp [Lexeme.span, Lexeme.text, wordOf, bytes_append]

/-- **Every lexeme stands where the scan says.** -/
theorem stands_of_mem_scan (p : Position) (before cs : List Char) (hp : p.Behind before) :
    ∀ x ∈ scan p (bytes before) cs, Stands (before ++ cs) x := by
  induction cs generalizing p before with
  | nil =>
    intro x hx
    cases p with
    | between | inComment => cases hx
    | inWord start characters =>
      obtain rfl := List.mem_singleton.1 hx
      exact stands_wordOf hp []
  | cons c cs ih =>
    have hnext : bytes before + c.utf8Size = bytes (before ++ [c]) := by
      rw [bytes_append, bytes_cons]
      rfl
    have hrest : ∀ p : Position, p.Behind (before ++ [c]) →
        ∀ x ∈ scan p (bytes before + c.utf8Size) cs, Stands (before ++ c :: cs) x := by
      intro p hp x hx
      rw [hnext] at hx
      have hstands := ih p (before ++ [c]) hp x hx
      rwa [List.append_assoc] at hstands
    intro x hx
    cases p with
    | between =>
      simp only [scan] at hx
      split_ifs at hx
      · exact hrest .between trivial x hx
      · exact hrest .inComment trivial x hx
      · -- A stray slash is one character.
        rcases List.mem_cons.1 hx with rfl | hx
        · next hslash _ =>
          subst hslash
          refine ⟨before, cs, by simp [Lexeme.text], ?_⟩
          simp only [Lexeme.span, Lexeme.text, Span.mk.injEq, true_and, Nat.add_left_cancel_iff]
          rfl
        · exact hrest .between trivial x hx
      · exact hrest (.inWord (bytes before) [c]) ⟨before, rfl, rfl, List.cons_ne_nil _ _⟩ x hx
    | inWord start characters =>
      simp only [scan] at hx
      split_ifs at hx
      · rcases List.mem_cons.1 hx with rfl | hx
        · exact stands_wordOf hp (c :: cs)
        · exact hrest .between trivial x hx
      · obtain ⟨front, rfl, rfl, -⟩ := hp
        refine hrest (.inWord (bytes front) (c :: characters)) ⟨front, ?_, rfl, ?_⟩ x hx
        · simp
        · exact List.cons_ne_nil _ _
    | inComment =>
      simp only [scan] at hx
      split_ifs at hx
      · exact hrest .between trivial x hx
      · exact hrest .inComment trivial x hx

/-- **The source has the text of every lexeme at its place.** -/
theorem hasAt_of_mem {source : String} {x : Lexeme} (h : x ∈ lexemes source) :
    HasAt source x.span x.text := by
  obtain ⟨before, after, hall, hspan⟩ := stands_of_mem_scan .between [] source.toList trivial x h
  refine ⟨String.ofList before, String.ofList after, ?_, ?_⟩
  · apply String.toList_injective
    simpa using hall
  · rw [hspan, bytes_toList]
    rfl

/-! ### One after another -/

/-- The offset from which the next lexeme of a scan starts. -/
def Position.from (here : Nat) : Position → Nat
  | .inWord start _ => start
  | _ => here

/-- The scan has gone on since the word that it stands in began. -/
def Position.Started (here : Nat) : Position → Prop
  | .inWord start _ => start < here
  | _ => True

/-- **Lexemes follow one another.** -/
theorem scan_ordered (p : Position) (here : Nat) (cs : List Char) (hp : p.Started here) :
    (∀ x ∈ scan p here cs, p.from here ≤ x.span.start) ∧
    (scan p here cs).Pairwise fun x y => x.span.start < y.span.start := by
  induction cs generalizing p here with
  | nil => cases p <;> simp [scan, Lexeme.span, wordOf, Position.from]
  | cons c cs ih =>
    have hsize : 0 < c.utf8Size := Char.utf8Size_pos c
    have hbetween := ih .between (here + c.utf8Size) trivial
    have hcomment := ih .inComment (here + c.utf8Size) trivial
    have hle : ∀ xs : List Lexeme, (∀ x ∈ xs, here + c.utf8Size ≤ x.span.start) →
        ∀ x ∈ xs, here ≤ x.span.start := fun xs h x hx => by
      have := h x hx
      omega
    -- A lexeme that ends here starts before everything that comes later.
    have hcons : ∀ y : Lexeme, y.span.start ≤ here →
        (∀ x ∈ y :: scan .between (here + c.utf8Size) cs, y.span.start ≤ x.span.start) ∧
        (y :: scan .between (here + c.utf8Size) cs).Pairwise
          fun x y => x.span.start < y.span.start := by
      intro y hy
      have hlater : ∀ x ∈ scan .between (here + c.utf8Size) cs, y.span.start < x.span.start := by
        intro x hx
        have := hbetween.1 x hx
        simp only [Position.from] at this
        omega
      refine ⟨?_, List.pairwise_cons.2 ⟨hlater, hbetween.2⟩⟩
      rintro x hx
      rcases List.mem_cons.1 hx with rfl | hx
      · exact Nat.le_refl _
      · exact Nat.le_of_lt (hlater x hx)
    cases p with
    | between =>
      simp only [scan, Position.from]
      split_ifs
      · exact ⟨hle _ hbetween.1, hbetween.2⟩
      · exact ⟨hle _ hcomment.1, hcomment.2⟩
      · exact hcons _ (Nat.le_refl _)
      · exact ih (.inWord here [c]) (here + c.utf8Size) (Nat.lt_add_of_pos_right hsize)
    | inWord start characters =>
      have hstart : start < here := hp
      simp only [scan, Position.from]
      split_ifs
      · exact hcons (.word (wordOf start characters here)) (Nat.le_of_lt hstart)
      · exact ih (.inWord start (c :: characters)) (here + c.utf8Size)
          (show start < here + c.utf8Size by omega)
    | inComment =>
      simp only [scan, Position.from]
      split_ifs
      · exact ⟨hle _ hbetween.1, hbetween.2⟩
      · exact ⟨hle _ hcomment.1, hcomment.2⟩

/-- Lexemes of a source follow one another. -/
theorem lexemes_ordered (source : String) :
    (lexemes source).Pairwise fun x y => x.span.start < y.span.start :=
  (scan_ordered .between 0 source.toList trivial).2

end Source

end BehaviorEngine
