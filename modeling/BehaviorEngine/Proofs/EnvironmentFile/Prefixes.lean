import Mathlib.Data.List.Induction
import BehaviorEngine.Proofs.EnvironmentFile.Forms
import BehaviorEngine.Proofs.EnvironmentFile.Lines

/-!
Environment files line by line. Each line that has words makes one declaration, which depends on the
lines above it alone, so the first lines of a file make the first declarations, and what stands
below the first bad line is of no account. Of the lines above, only the elements that they declare
count.
-/

namespace BehaviorEngine

namespace EnvironmentFile

/-! ### The first lines of a file -/

/-- The first `k` lines of some characters. -/
def firstLinesOf (k : Nat) (cs : List Char) : List Char :=
  ['\n'].intercalate ((cs.splitOn '\n').take k)

/-- The first `k` lines of a text. -/
def firstLines (k : Nat) (source : String) : String := String.ofList (firstLinesOf k source.toList)

section FirstLines

variable {cs rest : List Char} {number k : Nat}

/-- A line does not hold the end of a line. -/
theorem lineEnd_notMem {l : List Char} (h : l ∈ cs.splitOn '\n') : '\n' ∉ l := by
  induction cs using line_induction with
  | last l' hl =>
    rw [List.splitOn_eq_singleton hl, List.mem_singleton] at h
    rwa [h]
  | line l' rest hl ih =>
    rw [splitOn_lineEnd hl] at h
    rcases List.mem_cons.1 h with rfl | h
    · exact hl
    · exact ih h

theorem splitOn_firstLinesOf (cs : List Char) (hk : k ≠ 0) :
    (firstLinesOf k cs).splitOn '\n' = (cs.splitOn '\n').take k := by
  refine List.splitOn_intercalate '\n' (fun l hl => lineEnd_notMem (List.mem_of_mem_take hl)) ?_
  simp [hk, List.splitOn_ne_nil]

theorem linesOf_nil : linesOf [] number = [] := by
  rw [linesOf_of_notMem List.not_mem_nil]
  rfl

theorem number_lt {l : Line} (h : l ∈ linesOf cs number) :
    l.number < number + (cs.splitOn '\n').length := by
  obtain ⟨⟨text, n⟩, htext, hline⟩ := List.mem_flatMap.1 h
  obtain ⟨rfl, -⟩ := mem_lineOf hline
  exact (List.mem_zipIdx htext).2.1

/-- The numbers of the first `k` lines are below those of the others. -/
theorem exists_linesOf_eq (k : Nat) (cs : List Char) (number : Nat) :
    ∃ later, linesOf cs number = linesOf (firstLinesOf k cs) number ++ later ∧
      (∀ l ∈ linesOf (firstLinesOf k cs) number, l.number < number + k) ∧
      ∀ l ∈ later, number + k ≤ l.number := by
  by_cases hk : k = 0
  · subst hk
    have hnone : linesOf (firstLinesOf 0 cs) number = [] := linesOf_nil
    exact ⟨_, by rw [hnone]; rfl, by simp [hnone], fun l hl => (mem_linesOf hl).1⟩
  · have hsplit := splitOn_firstLinesOf cs hk
    refine ⟨(((cs.splitOn '\n').drop k).zipIdx
      (number + ((cs.splitOn '\n').take k).length)).flatMap fun l => lineOf l.2 (wordsOf l.1),
      ?_, fun l hl => ?_, fun l hl => ?_⟩
    · rw [linesOf, linesOf, hsplit, ← List.flatMap_append, ← List.zipIdx_append,
        List.take_append_drop]
    · have hlt := number_lt hl
      rw [hsplit, List.length_take] at hlt
      omega
    · obtain ⟨⟨text, n⟩, htext, hline⟩ := List.mem_flatMap.1 hl
      obtain ⟨rfl, -⟩ := mem_lineOf hline
      obtain ⟨hle, -, -⟩ := List.mem_zipIdx htext
      -- There are lines behind the first `k`, so these are `k` lines indeed.
      have hlength : 0 < ((cs.splitOn '\n').drop k).length := by
        have := List.length_pos_of_mem htext
        rwa [List.length_zipIdx] at this
      rw [List.length_drop] at hlength
      rw [List.length_take] at hle
      change number + k ≤ n
      omega

theorem exists_lines_eq (k : Nat) (source : String) :
    ∃ later, lines source = lines (firstLines k source) ++ later ∧
      (∀ l ∈ lines (firstLines k source), l.number ≤ k) ∧ ∀ l ∈ later, k < l.number := by
  obtain ⟨later, heq, hfirst, hlater⟩ := exists_linesOf_eq k source.toList 1
  rw [lines, lines, scan_eq_linesOf, scan_eq_linesOf, firstLines, String.toList_ofList]
  refine ⟨later, heq, fun l hl => ?_, fun l hl => ?_⟩
  · have := hfirst l hl
    omega
  · have := hlater l hl
    omega

/-- The lines of the first lines of a file are those of the file with a number up to there. -/
theorem lines_firstLines (k : Nat) (source : String) :
    lines (firstLines k source) = (lines source).filter fun l => l.number ≤ k := by
  obtain ⟨later, heq, hfirst, hlater⟩ := exists_lines_eq k source
  rw [heq, List.filter_append, List.filter_eq_self.2, List.filter_eq_nil_iff.2, List.append_nil]
  · intro l hl
    simpa using hlater l hl
  · intro l hl
    simpa using hfirst l hl

/-- Further lines come behind those of a text. -/
theorem linesOf_append_lineEnd (cs rest : List Char) (number : Nat) :
    linesOf (cs ++ '\n' :: rest) number =
      linesOf cs number ++ linesOf rest (number + (cs.splitOn '\n').length) := by
  induction cs using line_induction generalizing number with
  | last l h =>
    rw [linesOf_append h, linesOf_of_notMem h, List.splitOn_eq_singleton h]
    rfl
  | line l cs h ih =>
    rw [List.append_assoc, List.cons_append, linesOf_append h, linesOf_append h, splitOn_lineEnd h,
      ih, List.append_assoc, List.length_cons, Nat.add_assoc, Nat.add_comm 1]

theorem lines_append (text further : String) : lines (text ++ "\n" ++ further) =
    lines text ++ linesOf further.toList (1 + (text.toList.splitOn '\n').length) := by
  rw [lines, lines, scan_eq_linesOf, scan_eq_linesOf, String.toList_append, String.toList_append,
    List.append_assoc]
  exact linesOf_append_lineEnd _ _ _

/-- How many lines of a text are not blank. -/
def countLines (source : String) : Nat :=
  (source.toList.splitOn '\n').countP fun l => wordsOf l ≠ []

theorem length_linesOf (cs : List Char) (number : Nat) :
    (linesOf cs number).length = (cs.splitOn '\n').countP fun l => wordsOf l ≠ [] := by
  have hline (number : Nat) (l : List Char) :
      (lineOf number (wordsOf l)).length = if wordsOf l ≠ [] then 1 else 0 := by
    cases wordsOf l <;> rfl
  induction cs using line_induction generalizing number with
  | last l h => simp [linesOf_of_notMem h, List.splitOn_eq_singleton h, hline]
  | line l rest h ih =>
    rw [linesOf_append h, splitOn_lineEnd h, List.length_append, ih, hline]
    simp [List.countP_cons, Nat.add_comm]

theorem length_lines (source : String) : (lines source).length = countLines source := by
  rw [lines, scan_eq_linesOf, length_linesOf, countLines]

section Numbered

variable {source : String} {before after : List Line} {l : Line}

/-- The numbers of the lines of a file around one of them. -/
theorem numbers_around (h : lines source = before ++ l :: after) :
    1 ≤ l.number ∧ (∀ m ∈ before, m.number < l.number) ∧ ∀ m ∈ after, l.number < m.number := by
  rw [lines, scan_eq_linesOf] at h
  have hpairwise := h ▸ pairwise_linesOf source.toList 1
  rw [List.pairwise_append, List.pairwise_cons] at hpairwise
  obtain ⟨-, ⟨hafter, -⟩, hbefore⟩ := hpairwise
  exact ⟨(mem_linesOf (h ▸ List.mem_append_right _ List.mem_cons_self)).1,
    fun m hm => hbefore m hm l List.mem_cons_self, hafter⟩

theorem lines_above (h : lines source = before ++ l :: after) :
    lines (firstLines (l.number - 1) source) = before := by
  obtain ⟨hpos, hbefore, hafter⟩ := numbers_around h
  rw [lines_firstLines, h, List.filter_append, List.filter_eq_self.2, List.filter_eq_nil_iff.2,
    List.append_nil]
  · intro m hm
    have : l.number ≤ m.number := by
      rcases List.mem_cons.1 hm with rfl | hm
      · exact le_rfl
      · exact (hafter m hm).le
    simp only [decide_eq_true_eq]
    omega
  · intro m hm
    have := hbefore m hm
    simp only [decide_eq_true_eq]
    omega

theorem lines_upTo (h : lines source = before ++ l :: after) :
    lines (firstLines l.number source) = before ++ [l] := by
  obtain ⟨-, hbefore, hafter⟩ := numbers_around h
  rw [lines_firstLines, h, List.filter_append, List.filter_eq_self.2, List.filter_cons_of_pos,
    List.filter_eq_nil_iff.2]
  · intro m hm
    simpa using hafter m hm
  · simp
  · intro m hm
    simpa using (hbefore m hm).le

end Numbered

end FirstLines

/-! ### Declarations line by line -/

/-- The elements known behind some declarations. -/
def Elements.after (known : Elements) (ds : List Declaration) : Elements :=
  ds.foldl Elements.extend known

section Declarations

variable {known : Elements} {ls before after : List Line} {l : Line} {ds : List Declaration}
  {e : FileError}

theorem declarations_append (known : Elements) (before after : List Line) :
    declarations known (before ++ after) = do
      let ds ← declarations known before
      let es ← declarations (known.after ds) after
      return ds ++ es := by
  induction before generalizing known with
  | nil =>
    change declarations known after = (declarations known after >>= fun es => pure es)
    rw [bind_pure]
  | cons l before ih =>
    rw [List.cons_append, declarations, declarations]
    cases l.declaration known with
    | error e => rfl
    | ok d =>
      simp only [bind, Except.bind, ih]
      cases declarations (known.extend d) before with
      | error e => rfl
      | ok ds =>
        simp only [Elements.after, List.foldl_cons, pure, Except.pure]
        cases declarations (ds.foldl Elements.extend (known.extend d)) after <;> rfl

theorem declarations_append_of_ok (h : declarations known before = .ok ds) :
    declarations known (before ++ after) =
      (declarations (known.after ds) after).map (ds ++ ·) := by
  rw [declarations_append, h]
  simp only [bind, Except.bind]
  cases declarations (known.after ds) after <;> rfl

theorem declarations_append_of_error (h : declarations known before = .error e) :
    declarations known (before ++ after) = .error e := by
  rw [declarations_append, h]
  rfl

theorem declarations_singleton (known : Elements) (l : Line) :
    declarations known [l] = (l.declaration known).map ([·]) := by
  rw [declarations]
  cases l.declaration known <;> rfl

/-- Declarations fail at a line, behind lines that make declarations. -/
theorem exists_of_declarations_error (h : declarations known ls = .error e) :
    ∃ before l after ds, ls = before ++ l :: after ∧ declarations known before = .ok ds ∧
      l.declaration (known.after ds) = .error e := by
  induction ls generalizing known with
  | nil => cases h
  | cons l ls ih =>
    rw [declarations] at h
    cases hl : l.declaration known with
    | error e' =>
      rw [hl] at h
      cases h
      exact ⟨[], l, ls, [], rfl, rfl, hl⟩
    | ok d =>
      simp only [hl, bind, Except.bind] at h
      have hrest : declarations (known.extend d) ls = .error e := by
        split at h
        · next hls => rw [hls, h]
        · cases h
      obtain ⟨before, bad, after, ds, rfl, hbefore, hbad⟩ := ih hrest
      refine ⟨l :: before, bad, after, d :: ds, rfl, ?_, hbad⟩
      rw [declarations, hl]
      simp only [bind, Except.bind, hbefore]
      rfl

theorem declarations_concat_eq_ok : declarations known (before ++ [l]) = .ok ds ↔
    ∃ above d, declarations known before = .ok above ∧ l.Makes (known.after above) d ∧
      ds = above ++ [d] := by
  rw [declarations_append, bind_eq_ok]
  simp only [declarations_singleton, ← Line.declaration_eq_ok_iff]
  constructor
  · rintro ⟨above, habove, h⟩
    cases hl : l.declaration (known.after above) with
    | error e => rw [hl] at h; cases h
    | ok d =>
      rw [hl] at h
      cases h
      exact ⟨above, d, habove, hl, rfl⟩
  · rintro ⟨above, d, habove, hl, rfl⟩
    exact ⟨above, habove, by rw [hl]; rfl⟩

theorem length_of_declarations (h : declarations known ls = .ok ds) : ds.length = ls.length := by
  induction ls generalizing known ds with
  | nil => cases h; rfl
  | cons l ls ih =>
    rw [declarations, bind_eq_ok] at h
    obtain ⟨d, -, h⟩ := h
    rw [bind_eq_ok] at h
    obtain ⟨later, hlater, h⟩ := h
    cases h
    rw [List.length_cons, List.length_cons, ih hlater]

/-- Lines in front of others make the first declarations. -/
theorem declarations_take (h : declarations known (before ++ after) = .ok ds) :
    declarations known before = .ok (ds.take before.length) := by
  rw [declarations_append, bind_eq_ok] at h
  obtain ⟨above, habove, h⟩ := h
  rw [bind_eq_ok] at h
  obtain ⟨later, -, h⟩ := h
  cases h
  rw [← length_of_declarations habove, List.take_left, habove]

/-- The declaration of a line depends on the ones above it. -/
theorem exists_makes {i : Nat} (h : declarations known ls = .ok ds) (hl : ls[i]? = some l) :
    ∃ d, ds[i]? = some d ∧ l.Makes (known.after (ds.take i)) d := by
  obtain ⟨hi, rfl⟩ := List.getElem?_eq_some_iff.1 hl
  have hupto : declarations known (ls.take i ++ [ls[i]]) = .ok (ds.take (i + 1)) := by
    have hall : declarations known (ls.take (i + 1) ++ ls.drop (i + 1)) = .ok ds := by
      rwa [List.take_append_drop]
    have := declarations_take hall
    rwa [List.length_take_of_le hi, List.take_add_one, hl] at this
  obtain ⟨above, d, habove, hd, heq⟩ := declarations_concat_eq_ok.1 hupto
  have hlength : above.length = i := by
    rw [length_of_declarations habove, List.length_take_of_le hi.le]
  have habove : above = ds.take i := by
    have := congrArg (List.take i) heq
    rw [List.take_take, List.take_left' hlength] at this
    simpa using this.symm
  refine ⟨d, ?_, habove ▸ hd⟩
  have := congrArg (·[i]?) heq
  simpa [List.getElem?_take, ← hlength] using this

end Declarations

/-! ### The elements above a line -/

section Elements

variable {known : Elements} {before xs : List Line} {l m : Line} {ds : List Declaration}
  {d : Declaration} {enumeration element : String} {v : Int32}

/-- The last of some lines that declares an element gives it a value. -/
def LastValue (before : List Line) (enumeration element : String) (v : Int32) : Prop :=
  ∃ xs m ys value, before = xs ++ m :: ys ∧ m.words = ["enum", enumeration, element, value] ∧
    readElementValue? value = some v ∧
    ∀ m' ∈ ys, ∀ value', m'.words ≠ ["enum", enumeration, element, value']

theorem lastValue_concat : LastValue (xs ++ [m]) enumeration element v ↔
    (∃ value, m.words = ["enum", enumeration, element, value] ∧ readElementValue? value = some v) ∨
      (∀ value, m.words ≠ ["enum", enumeration, element, value]) ∧
        LastValue xs enumeration element v := by
  constructor
  · rintro ⟨xs', m', ys, value, heq, hwords, hvalue, hlast⟩
    obtain rfl | ⟨ys, m'', rfl⟩ := ys.eq_nil_or_concat
    · obtain ⟨-, hm⟩ := List.append_inj' heq rfl
      cases hm
      exact .inl ⟨value, hwords, hvalue⟩
    · rw [List.concat_eq_append, ← List.cons_append, ← List.append_assoc] at heq
      obtain ⟨rfl, hm⟩ := List.append_inj' heq rfl
      cases hm
      exact .inr ⟨hlast m (by simp), xs', m', ys, value, rfl, hwords, hvalue,
        fun m' hm' => hlast m' (by simp [hm'])⟩
  · rintro (⟨value, hwords, hvalue⟩ | ⟨hm, xs, m', ys, value, rfl, hwords, hvalue, hlast⟩)
    · exact ⟨xs, m, [], value, rfl, hwords, hvalue, by simp⟩
    · refine ⟨xs, m', ys ++ [m], value, by simp, hwords, hvalue, fun m'' hm'' => ?_⟩
      rcases List.mem_append.1 hm'' with hm'' | hm''
      · exact hlast m'' hm''
      · exact List.mem_singleton.1 hm'' ▸ hm

/-- The element that is declared last comes first. -/
theorem value?_extend_element {enumeration' element' : String} {v' : Int32} :
    (known.extend (.element enumeration' element' v')).value? enumeration element =
      if enumeration = enumeration' ∧ element = element' then some v'
      else known.value? enumeration element := by
  rw [Elements.extend, Elements.value?, List.lookup_cons]
  split
  · next hkey => rw [if_pos (Prod.mk.inj (beq_iff_eq.1 hkey))]
  · next hkey => rw [if_neg (by simpa using hkey), Elements.value?]

theorem value?_extend (h : l.Makes known d) :
    (known.extend d).value? enumeration element = some v ↔
      (∃ value, l.words = ["enum", enumeration, element, value] ∧
        readElementValue? value = some v) ∨
      (∀ value, l.words ≠ ["enum", enumeration, element, value]) ∧
        known.value? enumeration element = some v := by
  obtain ⟨directive, words, hwords, h⟩ := h
  cases h with
  | @element enumeration' name value v' hvalue =>
    rw [value?_extend_element]
    split
    · next hkey =>
      obtain ⟨rfl, rfl⟩ := hkey
      simp [hwords, Directive.word, hvalue]
    · next hkey =>
      have hother (value' : String) : l.words ≠ ["enum", enumeration, element, value'] := by
        rw [hwords]
        rintro heq
        cases heq
        exact hkey ⟨rfl, rfl⟩
      simp [hother]
  | _ => simp [Elements.extend, hwords, Directive.word]

theorem value?_after (h : declarations [] before = .ok ds) :
    (Elements.after [] ds).value? enumeration element = some v ↔
      LastValue before enumeration element v := by
  induction before using List.reverseRecOn generalizing ds v with
  | nil =>
    cases h
    simp [Elements.after, Elements.value?, LastValue]
  | append_singleton xs m ih =>
    obtain ⟨above, d, habove, hd, rfl⟩ := declarations_concat_eq_ok.1 h
    have hafter : Elements.after [] (above ++ [d]) = (Elements.after [] above).extend d := by
      simp [Elements.after]
    rw [hafter, value?_extend hd, ih habove, lastValue_concat]

theorem exists_lastValue_iff (h : declarations [] before = .ok ds) :
    (∃ v, LastValue before enumeration element v) ↔
      ∃ m ∈ before, ∃ value, m.words = ["enum", enumeration, element, value] := by
  induction before using List.reverseRecOn generalizing ds with
  | nil => simp [LastValue]
  | append_singleton xs m ih =>
    obtain ⟨above, d, habove, hd, rfl⟩ := declarations_concat_eq_ok.1 h
    simp only [lastValue_concat, List.mem_append, List.mem_singleton]
    constructor
    · rintro ⟨v, ⟨value, hm, -⟩ | ⟨-, hv⟩⟩
      · exact ⟨m, .inr rfl, value, hm⟩
      · obtain ⟨m', hm', hwords'⟩ := (ih habove).1 ⟨v, hv⟩
        exact ⟨m', .inl hm', hwords'⟩
    · rintro ⟨m', hm', value, hwords'⟩
      by_cases hlast : ∃ value, m.words = ["enum", enumeration, element, value]
      · -- A line of this form makes a declaration only with a value that can be read.
        obtain ⟨value, hm⟩ := hlast
        cases (Line.makes_iff .element hm).1 hd with
        | element hv => exact ⟨_, .inl ⟨value, hm, hv⟩⟩
      · rw [not_exists] at hlast
        rcases hm' with hm' | rfl
        · obtain ⟨v, hv⟩ := (ih habove).2 ⟨m', hm', value, hwords'⟩
          exact ⟨v, .inr ⟨hlast, hv⟩⟩
        · exact absurd hwords' (hlast value)

/-- A line that declares an enumerated input symbol takes the value of an element above it. -/
theorem makes_enumeratedInput_iff {arguments : List String}
    (hl : l.words = "enumerated-input" :: arguments) : l.Makes known d ↔
      ∃ name enumeration element v, arguments = [name, enumeration, element] ∧
        known.value? enumeration element = some v ∧ d = .enumeratedInput name enumeration v := by
  rw [Line.makes_iff .enumeratedInput hl]
  constructor
  · intro h
    cases h with
    | enumeratedInput hv => exact ⟨_, _, _, _, rfl, hv, rfl⟩
  · rintro ⟨name, enumeration, element, v, rfl, hv, rfl⟩
    exact .enumeratedInput hv

end Elements

/-! ### Files -/

section Files

variable {source : String} {e : FileError} {before after : List Line} {l : Line}
  {ds : List Declaration}

/-- A text fails at its first bad line. -/
structure FailsAt (source : String) (e : FileError) : Prop where
  line : ∃ l ∈ lines source, l.number = e.line
  above : ∃ ds, parse (firstLines (e.line - 1) source) = .ok ds
  upTo : parse (firstLines e.line source) = .error e
  extended : ∀ further, parse (firstLines e.line source ++ "\n" ++ further) = .error e

/-- The lines of a text that are not blank make one declaration each, and so do first lines. -/
structure DeclaresInOrder (source : String) (ds : List Declaration) : Prop where
  length : ds.length = countLines source
  line : ∀ (i : Nat) (l : Line), (lines source)[i]? = some l →
    ∃ d, ds[i]? = some d ∧ l.Makes (Elements.after [] (ds.take i)) d
  first : ∀ k, parse (firstLines k source) = .ok (ds.take (countLines (firstLines k source)))

theorem failsAt_of_parse (h : parse source = .error e) : FailsAt source e := by
  obtain ⟨before, l, after, ds, hlines, hbefore, hl⟩ := exists_of_declarations_error h
  have hline := line_of_declaration_error hl
  have hupto : declarations [] (before ++ [l]) = .error e := by
    rw [declarations_append_of_ok hbefore, declarations_singleton, hl]
    rfl
  have hfirst : lines (firstLines e.line source) = before ++ [l] := hline ▸ lines_upTo hlines
  refine ⟨⟨l, by simp [hlines], hline.symm⟩, ⟨ds, ?_⟩, ?_, fun further => ?_⟩
  · rw [parse, hline, lines_above hlines, hbefore]
  · rw [parse, hfirst, hupto]
  · rw [parse, lines_append, hfirst, declarations_append_of_error hupto]

theorem declaresInOrder_of_parse (h : parse source = .ok ds) : DeclaresInOrder source ds where
  length := by rw [length_of_declarations h, length_lines]
  line _ _ hl := exists_makes h hl
  first k := by
    obtain ⟨later, heq, -⟩ := exists_lines_eq k source
    rw [parse, heq] at h
    rw [parse, declarations_take h, length_lines]

/-- What is made of an enumerated input symbol depends on the elements that the lines above it
declare. -/
structure TakesLastValue (source : String) (before : List Line) (l : Line)
    (arguments : List String) (ds : List Declaration) : Prop where
  accepted : (∃ ds', parse (firstLines l.number source) = .ok ds') ↔
    ∃ name enumeration element, arguments = [name, enumeration, element] ∧
      ∃ m ∈ before, ∃ value, m.words = ["enum", enumeration, element, value]
  value : ∀ ds', parse (firstLines l.number source) = .ok ds' ↔
    ∃ name enumeration element v, arguments = [name, enumeration, element] ∧
      LastValue before enumeration element v ∧ ds' = ds ++ [.enumeratedInput name enumeration v]

theorem takesLastValue {arguments : List String} (hlines : lines source = before ++ l :: after)
    (hl : l.words = "enumerated-input" :: arguments)
    (h : parse (firstLines (l.number - 1) source) = .ok ds) :
    TakesLastValue source before l arguments ds := by
  have hbefore : declarations [] before = .ok ds := by rwa [parse, lines_above hlines] at h
  have hvalue (ds' : List Declaration) : parse (firstLines l.number source) = .ok ds' ↔
      ∃ name enumeration element v, arguments = [name, enumeration, element] ∧
        LastValue before enumeration element v ∧
          ds' = ds ++ [.enumeratedInput name enumeration v] := by
    rw [parse, lines_upTo hlines, declarations_concat_eq_ok]
    constructor
    · rintro ⟨above, d, habove, hd, rfl⟩
      obtain rfl := Except.ok.inj (hbefore.symm.trans habove)
      obtain ⟨name, enumeration, element, v, rfl, hv, rfl⟩ := (makes_enumeratedInput_iff hl).1 hd
      exact ⟨name, enumeration, element, v, rfl, (value?_after hbefore).1 hv, rfl⟩
    · rintro ⟨name, enumeration, element, v, harguments, hv, rfl⟩
      exact ⟨ds, _, hbefore, (makes_enumeratedInput_iff hl).2
        ⟨name, enumeration, element, v, harguments, (value?_after hbefore).2 hv, rfl⟩, rfl⟩
  refine ⟨?_, hvalue⟩
  constructor
  · rintro ⟨ds', hds'⟩
    obtain ⟨name, enumeration, element, v, harguments, hv, -⟩ := (hvalue ds').1 hds'
    exact ⟨name, enumeration, element, harguments, (exists_lastValue_iff hbefore).1 ⟨v, hv⟩⟩
  · rintro ⟨name, enumeration, element, harguments, hm⟩
    obtain ⟨v, hv⟩ := (exists_lastValue_iff hbefore).2 hm
    exact ⟨_, (hvalue _).2 ⟨name, enumeration, element, v, harguments, hv, rfl⟩⟩

/-- The end of the last line is of no account. -/
theorem parse_append_lineEnd (text : String) : parse (text ++ "\n") = parse text := by
  have h := lines_append text ""
  rw [String.append_empty, String.toList_empty, linesOf_nil, List.append_nil] at h
  rw [parse, parse, h]

/-- **A file is read line by line.** If a file is refused, it is refused for its first bad line,
with the number of that line: the lines above it make declarations, and with it they are refused in
the same way, whatever follows. A file that is not refused has a declaration for each line that is
not blank, in order, and its first lines make the first declarations. A line that declares an
enumerated input symbol is taken if and only if a line above it declares the element that it names,
and the symbol has the value that the last such line gives. -/
theorem parse_local (source : String) :
    (∀ e, parse source = .error e → FailsAt source e) ∧
    (∀ ds, parse source = .ok ds → DeclaresInOrder source ds) ∧
    (∀ before l after arguments ds, lines source = before ++ l :: after →
      l.words = "enumerated-input" :: arguments →
      parse (firstLines (l.number - 1) source) = .ok ds →
      TakesLastValue source before l arguments ds) ∧
    parse (source ++ "\n") = parse source :=
  ⟨fun _ => failsAt_of_parse, fun _ => declaresInOrder_of_parse,
    fun _ _ _ _ _ hlines hl h => takesLastValue hlines hl h, parse_append_lineEnd source⟩

/-- An element that is declared twice, an input symbol that takes its last value, and a bad line. -/
def roles : String :=
  "enum role striker 0\n\nenum role striker 1 // again\n" ++
    "enumerated-input game.role role striker\nenum role keeper x\nbasic-behavior kick\n"

theorem lines_roles : lines roles =
    [⟨1, ["enum", "role", "striker", "0"]⟩, ⟨3, ["enum", "role", "striker", "1"]⟩,
      ⟨4, ["enumerated-input", "game.role", "role", "striker"]⟩,
      ⟨5, ["enum", "role", "keeper", "x"]⟩, ⟨6, ["basic-behavior", "kick"]⟩] := by
  decide +kernel

theorem parse_local_roles :
    parse roles = .error ⟨5, .invalidValue "element value" "x"⟩ ∧
      FailsAt roles ⟨5, .invalidValue "element value" "x"⟩ ∧
      DeclaresInOrder (firstLines 4 roles)
        [.element "role" "striker" 0, .element "role" "striker" 1,
          .enumeratedInput "game.role" "role" 1] ∧
      TakesLastValue roles
        [⟨1, ["enum", "role", "striker", "0"]⟩, ⟨3, ["enum", "role", "striker", "1"]⟩]
        ⟨4, ["enumerated-input", "game.role", "role", "striker"]⟩ ["game.role", "role", "striker"]
        [.element "role" "striker" 0, .element "role" "striker" 1] := by
  have hroles : parse roles = .error ⟨5, .invalidValue "element value" "x"⟩ := by
    rw [parse, lines_roles]
    rfl
  have hfirst : parse (firstLines 4 roles) = .ok [.element "role" "striker" 0,
      .element "role" "striker" 1, .enumeratedInput "game.role" "role" 1] := by
    rw [parse, lines_firstLines, lines_roles]
    rfl
  have habove : parse (firstLines 3 roles) =
      .ok [.element "role" "striker" 0, .element "role" "striker" 1] := by
    rw [parse, lines_firstLines, lines_roles]
    rfl
  exact ⟨hroles, (parse_local roles).1 _ hroles, (parse_local (firstLines 4 roles)).2.1 _ hfirst,
    (parse_local roles).2.2.1 _ _ _ _ _ lines_roles rfl habove⟩

end Files

end EnvironmentFile

end BehaviorEngine
