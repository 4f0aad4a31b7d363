import Mathlib.Data.List.TakeWhile
import BehaviorEngine.EnvironmentFile.Declaration
import BehaviorEngine.Proofs.EnvironmentFile.Tokens

/-!
The lines of an environment file without a scan: the file is split at its line ends, and the words
of a line are the maximal runs of characters other than gaps, up to the first that starts with two
slashes. Every line that is left has a first word, so declarations can take it without a look.
-/

namespace BehaviorEngine

namespace EnvironmentFile

/-! ### The words of a line -/

/-- The maximal runs of characters other than gaps. -/
def runs (l : List Char) : List (List Char) := (l.splitOnP isGap).filter (· ≠ [])

/-- The words of a line: its runs up to the first that starts with two slashes, which begins a
comment. -/
def wordsOf (l : List Char) : List String :=
  ((runs l).takeWhile fun r => !(['/', '/'].isPrefixOf r)).map String.ofList

/-- The lines of a file that have words, with their numbers. -/
def linesOf (cs : List Char) (number : Nat) : List Line :=
  ((cs.splitOn '\n').zipIdx number).flatMap fun l => lineOf l.2 (wordsOf l.1)

variable {l text rest cs : List Char} {c : Char} {number : Nat} {finished : List String}

theorem runs_cons_gap (h : isGap c = true) : runs (c :: l) = runs l := by
  simp [runs, List.splitOnP_cons_eq_if_modifyHead, h]

theorem runs_cons (h : isGap c = false) :
    runs (c :: l) = (c :: l.takeWhile (!isGap ·)) :: runs (l.dropWhile (!isGap ·)) := by
  have hrun : ∀ d ∈ c :: l.takeWhile (!isGap ·), isGap d = false := by
    refine List.forall_mem_cons.2 ⟨h, fun d hd => ?_⟩
    simpa using List.mem_takeWhile_imp hd
  have hl : c :: l = (c :: l.takeWhile (!isGap ·)) ++ l.dropWhile (!isGap ·) := by
    rw [List.cons_append, List.takeWhile_append_dropWhile]
  rw [hl]
  -- Behind the run stands nothing, or a gap that parts it from the others.
  match hrest : l.dropWhile (!isGap ·) with
  | [] => simp [runs, List.splitOnP_eq_singleton hrun]
  | d :: rest =>
    have hgap : isGap d = true := by
      simpa [hrest] using List.head_dropWhile_not (!isGap ·) (l := l) (by simp [hrest])
    rw [runs_cons_gap hgap, runs, List.splitOnP_append_cons_of_forall_mem hrun d hgap]
    simp [runs]

theorem wordsOf_cons_gap (h : isGap c = true) : wordsOf (c :: l) = wordsOf l := by
  rw [wordsOf, runs_cons_gap h, wordsOf]

theorem wordsOf_comment : wordsOf ('/' :: '/' :: l) = [] := by
  rw [wordsOf, runs_cons (by decide), List.takeWhile_cons]
  simp [isGap]

theorem wordsOf_cons (h : isGap c = false) (hopen : ¬(c = '/' ∧ l.head? = some '/')) :
    wordsOf (c :: l) =
      String.ofList (c :: l.takeWhile (!isGap ·)) :: wordsOf (l.dropWhile (!isGap ·)) := by
  have hword : ['/', '/'].isPrefixOf (c :: l.takeWhile (!isGap ·)) = false := by
    rw [Bool.eq_false_iff, Ne, List.isPrefixOf_iff_prefix, List.cons_prefix_cons]
    rintro ⟨rfl, hslash⟩
    obtain ⟨rest, hrest⟩ := hslash.trans (List.takeWhile_prefix _)
    exact hopen ⟨rfl, by simp [← hrest]⟩
  rw [wordsOf, runs_cons h, List.takeWhile_cons, hword]
  rfl

/-! ### The scan of a line -/

/-- The words that are still to come on a line, or to be finished, from a position on. -/
def Position.wordsOn : Position → List Char → List String
  | .between, l => wordsOf l
  | .inWord characters, l =>
    String.ofList (characters.reverse ++ l.takeWhile (!isGap ·)) :: wordsOf (l.dropWhile (!isGap ·))
  | .inComment, _ => []

theorem scan_line (p : Position) (h : '\n' ∉ l) :
    scan number finished p l = lineOf number (finished.reverse ++ p.wordsOn l) := by
  induction l generalizing finished p with
  | nil => cases p <;> simp [scan_nil, wordsAt, Position.wordsOn, wordsOf, runs]
  | cons c l ih =>
    rw [List.mem_cons, not_or] at h
    have hnew : c ≠ '\n' := Ne.symm h.1
    cases p with
    | between =>
      rw [scan_between hnew, Position.wordsOn]
      split
      · next hgap => rw [ih _ h.2, wordsOf_cons_gap hgap, Position.wordsOn]
      · next hgap =>
        rw [Bool.not_eq_true] at hgap
        split
        · next hopen =>
          obtain ⟨rfl, hslash⟩ := hopen
          obtain ⟨l, rfl⟩ : ∃ tail, l = '/' :: tail := by
            cases l with
            | nil => simp at hslash
            | cons d tail => exact ⟨tail, by simpa using hslash⟩
          rw [ih _ h.2, wordsOf_comment, Position.wordsOn]
        · next hopen => rw [ih _ h.2, wordsOf_cons hgap hopen, Position.wordsOn]; rfl
    | inWord characters =>
      rw [scan_inWord hnew, Position.wordsOn]
      split
      · next hgap =>
        rw [ih _ h.2, Position.wordsOn]
        simp [hgap, wordsOf_cons_gap]
      · next hgap =>
        rw [ih _ h.2, Position.wordsOn]
        simp [hgap]
    | inComment => rw [scan_inComment hnew, ih _ h.2, Position.wordsOn, Position.wordsOn]

/-- A scan starts afresh behind the end of a line. -/
theorem scan_lineEnd (p : Position) (h : '\n' ∉ l) :
    scan number finished p (l ++ '\n' :: rest) =
      scan number finished p l ++ scan (number + 1) [] .between rest := by
  induction l generalizing finished p with
  | nil => rw [List.nil_append, scan_newline, scan_nil]
  | cons c l ih =>
    rw [List.mem_cons, not_or] at h
    have hnew : c ≠ '\n' := Ne.symm h.1
    -- The end of the line does not turn a slash into the start of a comment.
    have hhead : (l ++ '\n' :: rest).head? = some '/' ↔ l.head? = some '/' := by
      cases l <;> simp
    cases p with
    | between =>
      rw [List.cons_append, scan_between hnew, scan_between hnew]
      simp only [hhead, ih _ h.2]
      split_ifs <;> rfl
    | inWord characters =>
      rw [List.cons_append, scan_inWord hnew, scan_inWord hnew]
      simp only [ih _ h.2]
      split <;> rfl
    | inComment => rw [List.cons_append, scan_inComment hnew, scan_inComment hnew, ih _ h.2]

/-! ### All lines -/

theorem linesOf_of_notMem (h : '\n' ∉ l) : linesOf l number = lineOf number (wordsOf l) := by
  simp [linesOf, List.splitOn_eq_singleton h]

theorem splitOn_lineEnd (h : '\n' ∉ l) :
    (l ++ '\n' :: rest).splitOn '\n' = l :: rest.splitOn '\n' := by
  simp only [List.splitOn_eq_splitOnP]
  refine List.splitOnP_append_cons_of_forall_mem (fun d hd => ?_) _ (by simp) _
  rw [beq_eq_false_iff_ne]
  rintro rfl
  exact h hd

theorem linesOf_append (h : '\n' ∉ l) : linesOf (l ++ '\n' :: rest) number =
    lineOf number (wordsOf l) ++ linesOf rest (number + 1) := by
  simp [linesOf, splitOn_lineEnd h, List.zipIdx_cons]

/-- What holds of a line, and goes on from a file to one more line in front of it, holds of every
file. -/
theorem line_induction {P : List Char → Prop} (last : ∀ l, '\n' ∉ l → P l)
    (line : ∀ l rest, '\n' ∉ l → P rest → P (l ++ '\n' :: rest)) (cs : List Char) : P cs := by
  by_cases h : '\n' ∈ cs
  · obtain ⟨l, rest, heq, hl⟩ := List.eq_append_cons_of_mem h
    have hlt : rest.length < cs.length := by
      rw [heq, List.length_append, List.length_cons]
      omega
    exact heq ▸ line l rest hl (line_induction last line rest)
  · exact last cs h
termination_by cs.length
decreasing_by exact hlt

/-- **The scan of a file gives the lines between its line ends.** -/
theorem scan_eq_linesOf (cs : List Char) (number : Nat) :
    scan number [] .between cs = linesOf cs number := by
  induction cs using line_induction generalizing number with
  | last l h => rw [scan_line _ h, linesOf_of_notMem h]; rfl
  | line l rest h ih => rw [scan_lineEnd _ h, scan_line _ h, ih, linesOf_append h]; rfl

/-! ### What the lines are -/

theorem mem_lineOf {line : Line} {words : List String} (h : line ∈ lineOf number words) :
    line = ⟨number, words⟩ ∧ words ≠ [] := by
  cases words with
  | nil => simp [lineOf] at h
  | cons word words => exact ⟨by simpa [lineOf] using h, List.cons_ne_nil _ _⟩

theorem mem_linesOf {line : Line} (h : line ∈ linesOf cs number) :
    number ≤ line.number ∧ line.words ≠ [] := by
  obtain ⟨⟨l, n⟩, hl, hline⟩ := List.mem_flatMap.1 h
  obtain ⟨rfl, hwords⟩ := mem_lineOf hline
  exact ⟨(List.mem_zipIdx hl).1, hwords⟩

theorem pairwise_linesOf (cs : List Char) (number : Nat) :
    (linesOf cs number).Pairwise fun l m => l.number < m.number := by
  have hline (number : Nat) (words : List String) :
      (lineOf number words).Pairwise fun l m => l.number < m.number := by
    cases words <;> simp [lineOf]
  induction cs using line_induction generalizing number with
  | last l h => exact linesOf_of_notMem h ▸ hline _ _
  | line l rest h ih =>
    rw [linesOf_append h, List.pairwise_append]
    refine ⟨hline _ _, ih _, fun first hfirst later hlater => ?_⟩
    obtain ⟨rfl, -⟩ := mem_lineOf hfirst
    exact (mem_linesOf hlater).1

/-! ### The first words of lines -/

end EnvironmentFile

end BehaviorEngine
