import Mathlib.Data.List.Basic
import BehaviorEngine.Source.Lexeme

/-!
What a scan does with blanks, comments and words, and the lexemes of a source that goes on after a
line feed: a line feed ends words and comments, so they are the lexemes of the two parts one after
another, with the second part moved to its place.
-/

namespace BehaviorEngine

/-- The same number of bytes further on. -/
def Span.shift (n : Nat) (s : Span) : Span := ⟨n + s.start, n + s.stop⟩

def Word.shift (n : Nat) (w : Word) : Word := { w with span := w.span.shift n }

def Lexeme.shift (n : Nat) : Lexeme → Lexeme
  | word w => word (w.shift n)
  | stray w => stray (w.shift n)

namespace Source

/-- The number of bytes of some characters. -/
def bytes (cs : List Char) : Nat := (String.ofList cs).utf8ByteSize

theorem bytes_cons (c : Char) (cs : List Char) : bytes (c :: cs) = c.utf8Size + bytes cs := by
  rw [bytes, String.ofList_cons]
  simp [bytes]

theorem bytes_toList (s : String) : bytes s.toList = s.utf8ByteSize := by
  rw [bytes, String.ofList_toList]

namespace Position

/-- The same number of bytes further on. -/
def shift (n : Nat) : Position → Position
  | between => between
  | inWord start characters => inWord (n + start) characters
  | inComment => inComment

end Position

/-- A scan does the same wherever it begins. -/
theorem scan_shift (n : Nat) (p : Position) (here : Nat) (cs : List Char) :
    scan (p.shift n) (n + here) cs = (scan p here cs).map (Lexeme.shift n) := by
  induction cs generalizing p here with
  | nil => cases p <;> rfl
  | cons c cs ih =>
    have hbetween : ∀ here, scan .between (n + here) cs =
        (scan .between here cs).map (Lexeme.shift n) := ih .between
    have hcomment : ∀ here, scan .inComment (n + here) cs =
        (scan .inComment here cs).map (Lexeme.shift n) := ih .inComment
    have hword : ∀ start characters here, scan (.inWord (n + start) characters) (n + here) cs =
        (scan (.inWord start characters) here cs).map (Lexeme.shift n) :=
      fun start characters => ih (.inWord start characters)
    cases p with
    | between =>
      simp only [Position.shift, scan, Nat.add_assoc, hbetween, hcomment, hword]
      split_ifs <;> rfl
    | inWord start characters =>
      simp only [Position.shift, scan, Nat.add_assoc, hbetween, hword]
      split_ifs <;> rfl
    | inComment =>
      simp only [Position.shift, scan, Nat.add_assoc]
      split_ifs
      · exact hbetween _
      · exact hcomment _

/-- A line feed ends words and comments. -/
theorem scan_append (p : Position) (here : Nat) (cs ds : List Char) :
    scan p here (cs ++ '\n' :: ds) =
      scan p here cs ++ scan .between (here + bytes cs + 1) ds := by
  induction cs generalizing p here with
  | nil => cases p <;> rfl
  | cons c cs ih =>
    have hhere : here + bytes (c :: cs) = here + c.utf8Size + bytes cs := by
      rw [bytes_cons, Nat.add_assoc]
    have hhead : (cs ++ '\n' :: ds).head? = some '/' ↔ cs.head? = some '/' := by
      cases cs <;> simp
    rw [hhere]
    cases p with
    | between =>
      simp only [List.cons_append, scan, hhead, ih]
      split_ifs <;> rfl
    | inWord start characters =>
      simp only [List.cons_append, scan, ih]
      split_ifs <;> rfl
    | inComment => simp only [List.cons_append, scan, ih]

/-! ### Blanks, comments and words -/

/-- The characters of a word: none is a blank, and the first one is no slash. -/
structure IsWord (cs : List Char) : Prop where
  ne_nil : cs ≠ []
  noBlank : ∀ c ∈ cs, isBlank c = false
  noSlash : cs.head? ≠ some '/'

/-- A word goes on with anything but a blank. -/
theorem IsWord.concat {w : List Char} {c : Char} (hw : IsWord w) (hc : isBlank c = false) :
    IsWord (w ++ [c]) := by
  refine ⟨by simp, ?_, ?_⟩
  · intro d hd
    rcases List.mem_append.1 hd with hd | hd
    · exact hw.noBlank d hd
    · rwa [List.mem_singleton.1 hd]
  · rw [List.head?_append_of_ne_nil _ hw.ne_nil]
    exact hw.noSlash

/-- A scan that is in a comment finds nothing up to the end of the line. -/
theorem scan_inComment {note : List Char} (h : '\n' ∉ note) (here : Nat) :
    scan .inComment here note = [] := by
  induction note generalizing here with
  | nil => rfl
  | cons c cs ih =>
    rw [List.mem_cons, not_or] at h
    rw [scan, if_neg (Ne.symm h.1)]
    exact ih h.2 _

/-- A scan that is in a word goes on to the next blank. -/
theorem scan_inWord {w : List Char} (h : ∀ c ∈ w, isBlank c = false) (start here : Nat)
    (characters cs : List Char) : scan (.inWord start characters) here (w ++ cs) =
      scan (.inWord start (w.reverse ++ characters)) (here + bytes w) cs := by
  induction w generalizing here characters with
  | nil => rfl
  | cons c w ih =>
    rw [List.forall_mem_cons] at h
    rw [List.cons_append, scan]
    simp only [h.1, Bool.false_eq_true, if_false]
    rw [ih h.2, bytes_cons, Nat.add_assoc, List.reverse_cons, List.append_assoc,
      List.singleton_append]

/-- A scan takes a word. -/
theorem scan_word {w : List Char} (hw : IsWord w) (here : Nat) (cs : List Char) :
    scan .between here (w ++ cs) = scan (.inWord here w.reverse) (here + bytes w) cs := by
  obtain ⟨hne, hblank, hslash⟩ := hw
  obtain ⟨c, w, rfl⟩ := List.exists_cons_of_ne_nil hne
  rw [List.forall_mem_cons] at hblank
  have hc : c ≠ '/' := fun h => hslash (congrArg some h)
  rw [List.cons_append, scan]
  simp only [hblank.1, hc, Bool.false_eq_true, if_false]
  rw [scan_inWord hblank.2, bytes_cons, Nat.add_assoc, List.reverse_cons]

/-- A scan between words passes over a blank. -/
theorem scan_blank {c : Char} (hc : isBlank c = true) (here : Nat) (cs : List Char) :
    scan .between here (c :: cs) = scan .between (here + c.utf8Size) cs := by
  rw [scan]
  simp only [hc, if_true]

/-! ### Sources -/

/-- **The lexemes of a source that goes on after a line feed.** -/
theorem lexemes_append (s t : String) : lexemes (s ++ "\n" ++ t) =
    lexemes s ++ (lexemes t).map (Lexeme.shift (s ++ "\n").utf8ByteSize) := by
  have hsource : (s ++ "\n" ++ t).toList = s.toList ++ '\n' :: t.toList := by simp
  have hsize : (s ++ "\n").utf8ByteSize = 0 + bytes s.toList + 1 := by
    rw [String.utf8ByteSize_append, bytes_toList, Nat.zero_add]
    rfl
  rw [lexemes, lexemes, lexemes, hsource, scan_append, ← scan_shift, hsize]
  rfl

end Source

end BehaviorEngine
