import BehaviorEngine.Source.Reader
import BehaviorEngine.Proofs.Source.Tokens

/-!
The words of a source without a scan: they are the maximal runs of characters other than blanks
that start outside comments and not with two slashes. A scan finds exactly these runs, each at its
range of bytes, unless there is a stray slash; a reader that is asked for words gives them one after
another, and then reports the end again and again. A limit changes no word and no place, it only
turns longer words into errors.
-/

namespace BehaviorEngine

namespace Source

/-! ### Runs and comments -/

/-- A run could start behind some characters: there are none, or the last one is a blank. -/
def EndsBlank (before : List Char) : Prop := ∀ c ∈ before.getLast?, isBlank c = true

/-- A run could end before some characters: there are none, or the first one is a blank. -/
def StartsBlank (after : List Char) : Prop := ∀ c ∈ after.head?, isBlank c = true

/-- Between some characters stands a maximal run of characters other than blanks. -/
structure IsRun (before run after : List Char) : Prop where
  ne_nil : run ≠ []
  noBlank : ∀ c ∈ run, isBlank c = false
  before : EndsBlank before
  after : StartsBlank after

/-- The first character of `after` is in a comment: in front of it, or with it, a run starts with
two slashes, and the line has not ended since. -/
def InComment (before after : List Char) : Prop :=
  ∃ front note, before = front ++ note ∧ EndsBlank front ∧ '\n' ∉ note ∧
    ['/', '/'] <+: note ++ after

/-- No slash is stray: one that starts a run is in a comment already, or begins one together with
a second slash. -/
def NoStray (all : List Char) : Prop :=
  ∀ before after, all = before ++ '/' :: after → EndsBlank before → InComment before ('/' :: after)

/-- **A word of a source**: a maximal run of characters other than blanks that starts outside
comments and not with two slashes, with the range of its bytes. -/
def IsWordOf (all : List Char) (w : Word) : Prop :=
  ∃ before after, all = before ++ w.text.toList ++ after ∧ IsRun before w.text.toList after ∧
    ¬InComment before (w.text.toList ++ after) ∧
    w.span = ⟨bytes before, bytes before + bytes w.text.toList⟩

theorem endsBlank_nil : EndsBlank [] := nofun

theorem endsBlank_concat {before : List Char} {c : Char} :
    EndsBlank (before ++ [c]) ↔ isBlank c = true := by
  simp [EndsBlank]

theorem startsBlank_cons {after : List Char} {c : Char} :
    StartsBlank (c :: after) ↔ isBlank c = true := by
  simp [StartsBlank]

namespace InComment

variable {before after note : List Char} {c : Char}

/-- A comment goes on up to the end of the line. -/
theorem append_left (h : InComment before []) (hnote : '\n' ∉ note) :
    InComment (before ++ note) [] := by
  obtain ⟨front, comment, rfl, hfront, hcomment, hslashes⟩ := h
  refine ⟨front, comment ++ note, List.append_assoc _ _ _, hfront, ?_, ?_⟩
  · simp [hcomment, hnote]
  · rw [List.append_nil] at hslashes ⊢
    exact hslashes.trans (List.prefix_append _ _)

/-- Where a run starts, a comment is open already or begins. -/
theorem of_endsBlank (h : InComment before after) (hbefore : EndsBlank before) :
    InComment before [] ∨ ['/', '/'] <+: after := by
  obtain ⟨front, note, rfl, hfront, hnote, hslashes⟩ := h
  match note with
  | [] => exact .inr hslashes
  | [c] =>
    obtain rfl : '/' = c := (List.cons_prefix_cons.1 hslashes).1
    exact absurd (endsBlank_concat.1 hbefore) (by decide)
  | c :: d :: note =>
    refine .inl ⟨front, c :: d :: note, rfl, hfront, hnote, ?_⟩
    simpa [List.cons_prefix_cons] using hslashes

/-- One character further on, no new comment is open but the one of a second slash. -/
theorem of_concat (h : InComment (before ++ [c]) []) :
    c ≠ '\n' ∧ (InComment before [] ∨ c = '/' ∧ ∃ front, before = front ++ ['/'] ∧
      EndsBlank front) := by
  obtain ⟨front, note, hbefore, hfront, hnote, hslashes⟩ := h
  rw [List.append_nil] at hslashes
  obtain ⟨rest, rfl⟩ := hslashes
  rcases List.eq_nil_or_concat rest with rfl | ⟨rest, d, rfl⟩
  · have heq : before ++ [c] = (front ++ ['/']) ++ ['/'] := by simpa using hbefore
    obtain ⟨rfl, hc⟩ := List.append_inj' heq rfl
    obtain rfl : c = '/' := by simpa using hc
    exact ⟨by decide, .inr ⟨rfl, front, rfl, hfront⟩⟩
  · have heq : before ++ [c] = (front ++ '/' :: '/' :: rest) ++ [d] := by simpa using hbefore
    obtain ⟨rfl, hc⟩ := List.append_inj' heq rfl
    obtain rfl : c = d := by simpa using hc
    simp only [List.concat_eq_append, List.mem_append, List.mem_singleton, not_or] at hnote
    refine ⟨Ne.symm hnote.2.2, .inl ⟨front, '/' :: '/' :: rest, rfl, hfront, ?_, ?_⟩⟩
    · simpa using hnote.2.1
    · simp

end InComment

/-! ### One character of a scan -/

/-- The position of a scan behind the character `c`, which stands at the offset `here` in front of
`cs`. -/
def Position.step (here : Nat) (c : Char) (cs : List Char) : Position → Position
  | .between =>
    if isBlank c then .between
    else if c = '/' then if cs.head? = some '/' then .inComment else .between
    else .inWord here [c]
  | .inWord start characters => if isBlank c then .between else .inWord start (c :: characters)
  | .inComment => if c = '\n' then .between else .inComment

/-- What a scan finds when it passes the character `c`. -/
def Position.found (here : Nat) (c : Char) (cs : List Char) : Position → List Lexeme
  | .between =>
    if c = '/' ∧ cs.head? ≠ some '/' then [.stray ⟨"/", ⟨here, here + c.utf8Size⟩⟩] else []
  | .inWord start characters => if isBlank c then [.word (wordOf start characters here)] else []
  | .inComment => []

theorem scan_cons (p : Position) (here : Nat) (c : Char) (cs : List Char) : scan p here (c :: cs) =
    p.found here c cs ++ scan (p.step here c cs) (here + c.utf8Size) cs := by
  have hslash : isBlank '/' = false := by decide
  cases p with
  | between =>
    simp only [scan, Position.found, Position.step]
    split_ifs <;> simp_all
  | inWord start characters =>
    simp only [scan, Position.found, Position.step]
    split_ifs <;> rfl
  | inComment =>
    simp only [scan, Position.found, Position.step]
    rfl

/-- **Where a scan can stand** between `before` and `after`. Between words, a run could start and no
comment is open; in a word, the run has started without a slash where no comment was open; in a
comment, the second slash may still be to come. -/
def Position.At (before after : List Char) : Position → Prop
  | .between => EndsBlank before ∧ ¬InComment before []
  | .inWord start characters => ∃ front, before = front ++ characters.reverse ∧
      start = bytes front ∧ EndsBlank front ∧ ¬InComment before [] ∧
      (∀ c ∈ characters, isBlank c = false) ∧ ∃ c ∈ characters.getLast?, c ≠ '/'
  | .inComment => ∃ front note, before = front ++ '/' :: note ∧ EndsBlank front ∧ '\n' ∉ note ∧
      (note ++ after).head? = some '/'

theorem Position.at_start (all : List Char) : Position.between.At [] all := by
  refine ⟨endsBlank_nil, ?_⟩
  rintro ⟨front, note, hnil, -, -, hslashes⟩
  obtain ⟨rfl, rfl⟩ := List.append_eq_nil_iff.1 hnil.symm
  simp at hslashes

/-- **A scan goes on from where it can stand to where it can stand**, as long as it finds no stray
slash. -/
theorem Position.At.step {p : Position} {before cs : List Char} {c : Char}
    (hp : p.At before (c :: cs)) (hstray : ∀ w, .stray w ∉ p.found (bytes before) c cs) :
    (p.step (bytes before) c cs).At (before ++ [c]) cs := by
  have hslash : ∀ {d : Char}, isBlank d = true → d ≠ '/' := by
    rintro d hd rfl
    revert hd
    decide
  have hbetween : isBlank c = true → (InComment (before ++ [c]) [] → InComment before []) :=
    fun hc h => h.of_concat.2.resolve_right fun hs => hslash hc hs.1
  cases p with
  | between =>
    obtain ⟨hends, hopen⟩ := hp
    simp only [Position.step]
    split_ifs with hc hs hnext
    · exact ⟨endsBlank_concat.2 hc, fun h => hopen (hbetween hc h)⟩
    · subst hs
      exact ⟨before, [], rfl, hends, List.not_mem_nil, hnext⟩
    · exact (hstray ⟨"/", ⟨bytes before, bytes before + c.utf8Size⟩⟩
        (by simp [Position.found, hs, hnext])).elim
    · refine ⟨before, rfl, rfl, hends, fun h => ?_, by simpa using hc, c, rfl, hs⟩
      exact h.of_concat.2.elim hopen fun hs' => hs hs'.1
  | inWord start characters =>
    obtain ⟨front, rfl, rfl, hends, hopen, hblank, hfirst⟩ := hp
    simp only [Position.step]
    split_ifs with hc
    · exact ⟨endsBlank_concat.2 hc, fun h => hopen (hbetween hc h)⟩
    · rw [Bool.not_eq_true] at hc
      refine ⟨front, by simp, rfl, hends, fun h => ?_, List.forall_mem_cons.2 ⟨hc, hblank⟩, ?_⟩
      · obtain ⟨-, hcomment | ⟨-, other, hother, hotherEnds⟩⟩ := h.of_concat
        · exact hopen hcomment
        · -- Two slashes at the start of the word: but its first character is none.
          obtain ⟨d, hd, hne⟩ := hfirst
          obtain ⟨e, rest, rfl⟩ := List.exists_cons_of_ne_nil (List.ne_nil_of_mem
            (List.mem_of_getLast? hd))
          rw [List.reverse_cons, ← List.append_assoc] at hother
          obtain ⟨rfl, he⟩ := List.append_inj' hother rfl
          obtain rfl : e = '/' := by simpa using he
          cases rest with
          | nil => exact hne (Option.some_inj.1 hd).symm
          | cons f rest =>
            rw [List.reverse_cons, ← List.append_assoc, endsBlank_concat] at hotherEnds
            rw [hblank f (by simp)] at hotherEnds
            cases hotherEnds
      · obtain ⟨d, hd, hne⟩ := hfirst
        exact ⟨d, by rw [List.getLast?_cons, Option.mem_def.1 hd]; rfl, hne⟩
  | inComment =>
    obtain ⟨front, note, rfl, hends, hnote, hhead⟩ := hp
    simp only [Position.step]
    split_ifs with hc
    · subst hc
      exact ⟨endsBlank_concat.2 (by decide), fun h => h.of_concat.1 rfl⟩
    · refine ⟨front, note ++ [c], by simp, hends, ?_, by simpa using hhead⟩
      simp [hnote, Ne.symm hc]

/-! ### What a scan finds -/

theorem bytes_concat (before : List Char) (c : Char) :
    bytes (before ++ [c]) = bytes before + c.utf8Size := by
  rw [bytes_append, bytes_cons]
  rfl

/-- A word that ends is a word of the source. It does not start with a slash. -/
theorem Position.At.isWordOf {start : Nat} {characters before after : List Char}
    (hp : (Position.inWord start characters).At before after) (hafter : StartsBlank after) :
    IsWordOf (before ++ after) (wordOf start characters (bytes before)) ∧
      (wordOf start characters (bytes before)).text.toList.head? ≠ some '/' := by
  obtain ⟨front, rfl, rfl, hends, hopen, hblank, d, hd, hne⟩ := hp
  have hnil : characters ≠ [] := List.ne_nil_of_mem (List.mem_of_getLast? hd)
  have hnoBlank : ∀ c ∈ characters.reverse, isBlank c = false := fun c hc =>
    hblank c (List.mem_reverse.1 hc)
  rw [Option.mem_def, ← List.head?_reverse] at hd
  refine ⟨⟨front, after, by simp [wordOf], ⟨by simpa [wordOf] using hnil, ?_, hends, hafter⟩, ?_,
    ?_⟩, ?_⟩
  · simpa [wordOf] using hnoBlank
  · intro hcomment
    rcases hcomment.of_endsBlank hends with hcomment | hslashes
    · refine hopen (hcomment.append_left fun hmem => ?_)
      have := hnoBlank _ hmem
      revert this
      decide
    · -- The word would start with a slash.
      obtain ⟨rest, hrest⟩ := List.head?_eq_some_iff.1 hd
      simp only [wordOf, String.toList_ofList, hrest, List.cons_append] at hslashes
      exact hne (List.cons_prefix_cons.1 hslashes).1.symm
  · simp [wordOf, bytes_append]
  · simpa [wordOf, hd] using hne

/-- Where no slash is stray, a scan finds none. -/
theorem NoStray.not_mem_scan {all : List Char} (h : NoStray all) {p : Position}
    {before cs : List Char} (hall : all = before ++ cs) (hp : p.At before cs) :
    ∀ w, .stray w ∉ scan p (bytes before) cs := by
  induction cs generalizing p before with
  | nil => cases p <;> simp [scan]
  | cons c cs ih =>
    have hfound : ∀ w, .stray w ∉ p.found (bytes before) c cs := by
      intro w hw
      cases p with
      | between =>
        simp only [Position.found] at hw
        split_ifs at hw with hs
        · -- No comment is open here, so the slash would have to begin one.
          obtain ⟨rfl, hnext⟩ := hs
          rcases (h before cs hall hp.1).of_endsBlank hp.1 with hcomment | ⟨rest, hrest⟩
          · exact hp.2 hcomment
          · rw [← (List.cons.inj hrest).2] at hnext
            exact hnext rfl
        · cases hw
      | inWord start characters =>
        simp only [Position.found] at hw
        split_ifs at hw <;> simp at hw
      | inComment => cases hw
    intro w hw
    rw [scan_cons, List.mem_append, ← bytes_concat] at hw
    exact hw.elim (hfound w) (ih (by simpa using hall) (hp.step hfound) w)

/-- **What a scan finds are words of the source.** -/
theorem isWordOf_of_mem_scan {p : Position} {before cs : List Char} (hp : p.At before cs)
    (hstray : ∀ w, .stray w ∉ scan p (bytes before) cs) :
    ∀ w, .word w ∈ scan p (bytes before) cs →
      IsWordOf (before ++ cs) w ∧ w.text.toList.head? ≠ some '/' := by
  induction cs generalizing p before with
  | nil =>
    intro w hw
    cases p with
    | between | inComment => cases hw
    | inWord start characters =>
      obtain rfl := Lexeme.word.inj (List.mem_singleton.1 hw)
      exact hp.isWordOf nofun
  | cons c cs ih =>
    rw [scan_cons] at hstray ⊢
    simp only [List.mem_append, not_or, ← bytes_concat] at hstray ⊢
    rintro w (hw | hw)
    · cases p with
      | between =>
        simp only [Position.found] at hw
        split_ifs at hw <;> simp at hw
      | inWord start characters =>
        simp only [Position.found] at hw
        split_ifs at hw with hc
        · obtain rfl := Lexeme.word.inj (List.mem_singleton.1 hw)
          exact hp.isWordOf (startsBlank_cons.2 hc)
        · cases hw
      | inComment => cases hw
    · have hrest := ih (hp.step fun w => (hstray w).1) (fun w => (hstray w).2) w hw
      rwa [List.append_assoc] at hrest

/-- A word that has begun is found, with all that has been read of it. -/
theorem exists_word_of_inWord (start here : Nat) (characters cs : List Char) :
    ∃ w, .word w ∈ scan (.inWord start characters) here cs ∧ w.span.start = start ∧
      here ≤ w.span.stop := by
  induction cs generalizing here characters with
  | nil => exact ⟨_, List.mem_singleton_self _, rfl, Nat.le_refl _⟩
  | cons c cs ih =>
    by_cases hc : isBlank c = true
    · exact ⟨wordOf start characters here, by simp [scan, hc], rfl, Nat.le_refl _⟩
    · obtain ⟨w, hw, hstart, hstop⟩ := ih (here + c.utf8Size) (c :: characters)
      exact ⟨w, by simpa [scan, hc] using hw, hstart, Nat.le_trans (Nat.le_add_right _ _) hstop⟩

/-- **A scan misses no character** that is no blank and in no comment. -/
theorem exists_word_of_scan {p : Position} {before cs : List Char} (hp : p.At before cs)
    (hstray : ∀ w, .stray w ∉ scan p (bytes before) cs) {front after : List Char} {c : Char}
    (hcs : cs = front ++ c :: after) (hc : isBlank c = false)
    (hcomment : ¬InComment (before ++ front) (c :: after)) :
    ∃ w, .word w ∈ scan p (bytes before) cs ∧ w.span.start ≤ bytes (before ++ front) ∧
      bytes (before ++ front) + c.utf8Size ≤ w.span.stop := by
  induction front generalizing p before cs with
  | nil =>
    obtain rfl : cs = c :: after := hcs
    rw [List.append_nil] at hcomment ⊢
    cases p with
    | between =>
      have hslash : c ≠ '/' := by
        rintro rfl
        by_cases hnext : after.head? = some '/'
        · obtain ⟨rest, rfl⟩ := List.head?_eq_some_iff.1 hnext
          exact hcomment ⟨before, [], (List.append_nil _).symm, hp.1, List.not_mem_nil, by simp⟩
        · refine hstray ⟨"/", ⟨bytes before, bytes before + '/'.utf8Size⟩⟩ ?_
          rw [scan_cons]
          simp [Position.found, hnext]
      obtain ⟨w, hw, hstart, hstop⟩ :=
        exists_word_of_inWord (bytes before) (bytes before + c.utf8Size) [c] after
      exact ⟨w, by simpa [scan, hc, hslash] using hw, Nat.le_of_eq hstart, hstop⟩
    | inWord start characters =>
      obtain ⟨w, hw, hstart, hstop⟩ :=
        exists_word_of_inWord start (bytes before + c.utf8Size) (c :: characters) after
      obtain ⟨front, rfl, rfl, -⟩ := hp
      refine ⟨w, by simpa [scan, hc] using hw, ?_, hstop⟩
      rw [hstart, bytes_append]
      exact Nat.le_add_right _ _
    | inComment =>
      obtain ⟨front, note, rfl, hends, hnote, hhead⟩ := hp
      refine absurd ⟨front, '/' :: note, rfl, hends, by simp [hnote], ?_⟩ hcomment
      obtain ⟨rest, hrest⟩ := List.head?_eq_some_iff.1 hhead
      rw [List.cons_append, hrest]
      simp
  | cons d front ih =>
    subst hcs
    rw [List.cons_append, scan_cons] at hstray ⊢
    simp only [List.mem_append, not_or, ← bytes_concat before d] at hstray ⊢
    have hmove : before ++ d :: front = before ++ [d] ++ front := by simp
    rw [hmove] at hcomment ⊢
    obtain ⟨w, hw, hplace⟩ := ih (hp.step fun w => (hstray w).1) (fun w => (hstray w).2) rfl
      hcomment
    exact ⟨w, .inr hw, hplace⟩

/-! ### Runs are apart -/

theorem bytes_pos {cs : List Char} (h : cs ≠ []) : 0 < bytes cs := by
  obtain ⟨c, cs, rfl⟩ := List.exists_cons_of_ne_nil h
  rw [bytes_cons]
  exact Nat.add_pos_left (Char.utf8Size_pos c) _

namespace IsRun

variable {before run after : List Char}

/-- Where a run could start behind the start of another run, that one has ended, with something in
between. -/
theorem ends (h : IsRun before run after) {part rest : List Char} (hpart : part ≠ [])
    (hends : EndsBlank (before ++ part)) (heq : run ++ after = part ++ rest) :
    ∃ gap, gap ≠ [] ∧ part = run ++ gap := by
  obtain ⟨part, d, rfl⟩ := (List.eq_nil_or_concat part).resolve_left hpart
  rw [List.concat_eq_append] at heq hends ⊢
  rw [← List.append_assoc, endsBlank_concat] at hends
  have hd : d ∉ run := fun hmem => by simp [h.noBlank d hmem] at hends
  rcases List.append_eq_append_iff.1 heq with ⟨gap, hgap, -⟩ | ⟨rest, hrun, -⟩
  · refine ⟨gap, ?_, hgap⟩
    rintro rfl
    rw [List.append_nil] at hgap
    exact hd (by simp [← hgap])
  · exact absurd (by simp [hrun]) hd

/-- A run that starts where another one starts is the same. -/
theorem eq_of_start {run' after' : List Char} (h : IsRun before run after)
    (h' : IsRun before run' after') (heq : run ++ after = run' ++ after') : run = run' := by
  have hstop : ∀ {run after run' more : List Char}, IsRun before run after →
      IsRun before run' more → ∀ rest, run' = run ++ rest → after = rest ++ more → rest = [] := by
    rintro run after run' more h h' rest rfl rfl
    cases rest with
    | nil => rfl
    | cons d rest =>
      have hblank := h.after d rfl
      rw [h'.noBlank d (by simp)] at hblank
      cases hblank
  rcases List.append_eq_append_iff.1 heq with ⟨rest, hrun, hafter⟩ | ⟨rest, hrun, hafter⟩
  · rw [hrun, hstop h h' rest hrun hafter, List.append_nil]
  · rw [hrun, hstop h' h rest hrun hafter, List.append_nil]

end IsRun

namespace IsWordOf

variable {all : List Char} {v w : Word}

/-- A word is not empty. -/
theorem start_lt_stop (h : IsWordOf all w) : w.span.start < w.span.stop := by
  obtain ⟨before, after, -, hrun, -, hspan⟩ := h
  rw [hspan]
  exact Nat.lt_add_of_pos_right (bytes_pos hrun.ne_nil)

/-- **Words are apart**: a word that starts behind the start of another one starts behind its
end. -/
theorem apart (hv : IsWordOf all v) (hw : IsWordOf all w) (h : v.span.start < w.span.start) :
    v.span.stop < w.span.start := by
  obtain ⟨before, after, rfl, hrun, -, hspan⟩ := hv
  obtain ⟨before', after', hall, hrun', -, hspan'⟩ := hw
  rw [hspan, hspan'] at h ⊢
  simp only [List.append_assoc] at hall
  rcases List.append_eq_append_iff.1 hall with ⟨part, rfl, heq⟩ | ⟨part, rfl, -⟩
  · have hpart : part ≠ [] := by
      rintro rfl
      simp at h
    obtain ⟨gap, hgap, rfl⟩ := hrun.ends hpart hrun'.before heq
    have := bytes_pos hgap
    simp only [bytes_append]
    omega
  · simp only [bytes_append] at h
    omega

/-- A word is known by its start. -/
theorem eq_of_start (hv : IsWordOf all v) (hw : IsWordOf all w)
    (h : v.span.start = w.span.start) : v = w := by
  obtain ⟨before, after, rfl, hrun, -, hspan⟩ := hv
  obtain ⟨before', after', hall, hrun', -, hspan'⟩ := hw
  rw [hspan, hspan'] at h
  simp only [List.append_assoc] at hall
  have hbefore : before = before' := by
    have hnil : ∀ part : List Char, bytes part = 0 → part = [] := fun part hpart =>
      Classical.byContradiction fun hne => by
        have := bytes_pos hne
        omega
    rcases List.append_eq_append_iff.1 hall with ⟨part, rfl, -⟩ | ⟨part, rfl, -⟩
    · rw [hnil part (by simpa [bytes_append] using h), List.append_nil]
    · rw [hnil part (by simpa [bytes_append] using h), List.append_nil]
  subst hbefore
  have htext := hrun.eq_of_start hrun' (List.append_cancel_left hall)
  obtain ⟨text, span⟩ := v
  obtain ⟨text', span'⟩ := w
  obtain rfl : text = text' := String.toList_injective htext
  obtain rfl : span = span' := hspan.trans hspan'.symm
  rfl

/-- Words that have a byte in common are the same. -/
theorem eq_of_common (hv : IsWordOf all v) (hw : IsWordOf all w)
    (h : v.span.start < w.span.stop) (h' : w.span.start < v.span.stop) : v = w := by
  rcases Nat.lt_trichotomy v.span.start w.span.start with hlt | heq | hgt
  · exact absurd (hv.apart hw hlt) (by omega)
  · exact hv.eq_of_start hw heq
  · exact absurd (hw.apart hv hgt) (by omega)

end IsWordOf

/-! ### Sources -/

/-- **A slash is stray exactly if a scan finds it.** -/
theorem noStray_iff {source : String} :
    NoStray source.toList ↔ ∀ w, .stray w ∉ lexemes source := by
  refine ⟨fun h => h.not_mem_scan rfl (Position.at_start _), fun h before after hall hends => ?_⟩
  by_contra hcomment
  have hstart : Position.between.At [] source.toList := Position.at_start _
  obtain ⟨w, hw, hle, hlt⟩ := exists_word_of_scan hstart h hall (by decide) hcomment
  obtain ⟨⟨front, rest, hall', hrun, -, hspan⟩, hslash⟩ := isWordOf_of_mem_scan hstart h w hw
  have hfirst : w.text.toList ++ rest ≠ '/' :: after := by
    intro heq
    obtain ⟨c, cs, htext⟩ := List.exists_cons_of_ne_nil hrun.ne_nil
    rw [htext] at heq hslash
    exact hslash (congrArg some (List.cons.inj heq).1)
  simp only [hspan, List.nil_append] at hle hlt hall'
  rw [hall, List.append_assoc] at hall'
  -- The slash would be the first character of the word that it is in.
  rcases List.append_eq_append_iff.1 hall' with ⟨part, rfl, heq⟩ | ⟨part, rfl, heq⟩
  · cases part with
    | nil => exact hfirst heq.symm
    | cons c part =>
      have := bytes_pos (List.cons_ne_nil c part)
      rw [bytes_append] at hle
      omega
  · cases part with
    | nil => exact hfirst heq
    | cons c part =>
      obtain ⟨gap, -, hgap⟩ := hrun.ends (List.cons_ne_nil c part) hends heq
      rw [hgap, bytes_append, bytes_append] at hlt
      have := Char.utf8Size_pos '/'
      omega

/-- **The words that a scan finds in a source are the words of the source.** -/
theorem mem_lexemes_iff {source : String} (h : NoStray source.toList) (w : Word) :
    .word w ∈ lexemes source ↔ IsWordOf source.toList w := by
  have hstart : Position.between.At [] source.toList := Position.at_start _
  have hstray := noStray_iff.1 h
  refine ⟨fun hw => (isWordOf_of_mem_scan hstart hstray w hw).1, fun hw => ?_⟩
  obtain ⟨before, after, hall, hrun, hcomment, hspan⟩ := hw
  obtain ⟨c, cs, htext⟩ := List.exists_cons_of_ne_nil hrun.ne_nil
  have hc : isBlank c = false := hrun.noBlank c (by simp [htext])
  have hsplit : source.toList = before ++ c :: (cs ++ after) := by simp [hall, htext]
  obtain ⟨v, hv, hstartLe, hstopLe⟩ := exists_word_of_scan hstart hstray hsplit hc
    (by simpa [htext] using hcomment)
  rw [List.nil_append] at hstartLe hstopLe
  have hsize : 0 < c.utf8Size := Char.utf8Size_pos c
  have hv' := (isWordOf_of_mem_scan hstart hstray v hv).1
  have heq : v = w := by
    refine hv'.eq_of_common ⟨before, after, hall, hrun, hcomment, hspan⟩ ?_ ?_
    · have hpos := bytes_pos hrun.ne_nil
      simp only [hspan]
      omega
    · simp only [hspan]
      omega
  rwa [← heq]

/-- A character that is no blank and in no comment is in one word. -/
theorem exists_unique_word {source : String} (h : NoStray source.toList) {before after : List Char}
    {c : Char} (hall : source.toList = before ++ c :: after) (hc : isBlank c = false)
    (hcomment : ¬InComment before (c :: after)) :
    ∃ w, .word w ∈ lexemes source ∧ w.span.start ≤ bytes before ∧
      bytes before + c.utf8Size ≤ w.span.stop ∧
      ∀ v, .word v ∈ lexemes source → v.span.start < bytes before + c.utf8Size →
        bytes before < v.span.stop → v = w := by
  obtain ⟨w, hw, hstart, hstop⟩ :=
    exists_word_of_scan (Position.at_start _) (noStray_iff.1 h) hall hc hcomment
  refine ⟨w, hw, hstart, hstop, fun v hv hlt hgt => ?_⟩
  rw [List.nil_append] at hstart hstop
  have hw' := (mem_lexemes_iff h w).1 hw
  exact ((mem_lexemes_iff h v).1 hv).eq_of_common hw' (by omega) (by omega)

/-- Lexemes without stray slashes are words. -/
theorem exists_words {xs : List Lexeme} (h : ∀ w, .stray w ∉ xs) :
    ∃ words : List Word, xs = words.map .word := by
  induction xs with
  | nil => exact ⟨[], rfl⟩
  | cons x xs ih =>
    obtain ⟨words, rfl⟩ := ih fun w hw => h w (List.mem_cons_of_mem _ hw)
    cases x with
    | word w => exact ⟨w :: words, rfl⟩
    | stray w => exact absurd List.mem_cons_self (h w)

end Source

/-! ### Requests for words -/

namespace Reader

/-- The answers to so many requests for a word, one after another. -/
def answers : Nat → Reader → List (Except ConstructionError Word)
  | 0, _ => []
  | n + 1, r => r.word.1 :: answers n r.word.2

/-- A reader gives the words that are left, as far as it accepts them, and then only the end. -/
theorem answers_eq (r : Reader) {words : List Word} (h : r.rest = words.map .word) (n : Nat) :
    r.answers n = ((words.map fun w => r.accept (some w)) ++
      List.replicate n (r.accept none)).take n := by
  induction n generalizing r words with
  | zero => rfl
  | succ n ih =>
    cases words with
    | nil =>
      have hword : r.word = (r.accept none, r) := by simp [word, next, h, Except.bind]
      rw [answers, hword, ih r h]
      simp [List.replicate_succ]
    | cons w words =>
      have hword : r.word = (r.accept (some w), { r with rest := words.map .word }) := by
        simp [word, next, h, Except.bind]
      rw [answers, hword, ih _ rfl]
      simp [List.take_append, List.take_replicate, accept]
      omega

/-- The answer that gives a word, or reports that it is longer than the limit. -/
def judged (limit : Nat) (w : Word) : Except ConstructionError Word :=
  if w.text.utf8ByteSize ≤ limit then .ok w
  else .error ⟨.wordTooLong w.text.utf8ByteSize limit, w.span, []⟩

/-- The answer that there is no further word up to the end of a source. -/
def noFurther (source : String) : Except ConstructionError Word :=
  .error ⟨.unexpectedEnd, ⟨source.utf8ByteSize, source.utf8ByteSize⟩, []⟩

/-- **The words of a reader are those of the source.** In a source without stray slashes, the words
are the maximal runs of characters other than blanks that start outside comments and not with two
slashes. They follow one another without touching, each has its range of bytes, and every character
that is no blank and in no comment is in exactly one of them. These words, in order, are what a
reader gives or, where they are longer than its limit, reports as too long at the same places; every
later request is answered by the end of the source. A lexer that takes the longest match finds just
these words. -/
theorem answers_are_words (source : String) (h : Source.NoStray source.toList) :
    ∃ words : List Word,
      (∀ w, w ∈ words ↔ Source.IsWordOf source.toList w) ∧
      (∃ tokens, (∀ ts, Source.lexicon.Lexes source.toList ts ↔ ts = tokens) ∧ none ∉ tokens ∧
        Source.gather 0 tokens = words) ∧
      (words.Pairwise fun v w => v.span.stop < w.span.start) ∧
      (∀ w ∈ words, w.span.start < w.span.stop ∧ Source.HasAt source w.span w.text) ∧
      (∀ before c after, source.toList = before ++ c :: after → Source.isBlank c = false →
        ¬Source.InComment before (c :: after) → ∃ w ∈ words,
          w.span.start ≤ Source.bytes before ∧
          Source.bytes before + c.utf8Size ≤ w.span.stop ∧
          ∀ v ∈ words, v.span.start < Source.bytes before + c.utf8Size →
            Source.bytes before < v.span.stop → v = w) ∧
      (∀ limit n, (Reader.ofSource source limit).answers n =
        (words.map (judged limit) ++ List.replicate n (noFurther source)).take n) ∧
      ∀ limit, (∀ w ∈ words, w.text.utf8ByteSize ≤ limit) → ∀ n,
        (Reader.ofSource source limit).answers n =
          (words.map Except.ok ++ List.replicate n (noFurther source)).take n := by
  obtain ⟨words, hwords⟩ := Source.exists_words (Source.noStray_iff.1 h)
  have hlexeme : ∀ w, .word w ∈ Source.lexemes source ↔ w ∈ words := by
    intro w
    rw [hwords, List.mem_map_of_injective fun v w => Lexeme.word.inj]
  have hmem : ∀ w, w ∈ words ↔ Source.IsWordOf source.toList w := fun w =>
    (hlexeme w).symm.trans (Source.mem_lexemes_iff h w)
  have hordered : words.Pairwise fun v w => v.span.start < w.span.start := by
    have hlexemes := Source.lexemes_ordered source
    rw [hwords, List.pairwise_map] at hlexemes
    exact hlexemes
  have hanswers : ∀ limit n, (Reader.ofSource source limit).answers n =
      (words.map (judged limit) ++ List.replicate n (noFurther source)).take n := by
    intro limit n
    have hjudged : ∀ w, judged limit w = (Reader.ofSource source limit).accept (some w) := by
      intro w
      simp only [judged, accept, ofSource, ← Nat.not_le, ite_not]
    rw [answers_eq _ hwords, ← funext hjudged]
    rfl
  refine ⟨words, hmem, Source.lexes_of_lexemes hwords, ?_,
    fun w hw => ⟨((hmem w).1 hw).start_lt_stop, ?_⟩, ?_, hanswers, ?_⟩
  · exact hordered.imp_of_mem fun hv hw => ((hmem _).1 hv).apart ((hmem _).1 hw)
  · exact Source.hasAt_of_mem ((hlexeme w).2 hw)
  · intro before c after hall hc hcomment
    obtain ⟨w, hw, hstart, hstop, hunique⟩ := Source.exists_unique_word h hall hc hcomment
    exact ⟨w, (hlexeme w).1 hw, hstart, hstop, fun v hv => hunique v ((hlexeme v).2 hv)⟩
  · intro limit hlimit n
    have hok : words.map (judged limit) = words.map Except.ok :=
      List.map_congr_left fun w hw => if_pos (hlimit w hw)
    rw [hanswers, hok]

/-- A source with slashes in words and in comments, and with characters of two bytes. -/
def slashSource : String := "größe/2 // Höhe / 2\r\n\twalk//3\x0c// end"

theorem answers_are_words_slashes :
    Source.NoStray slashSource.toList ∧
    (∃ words : List Word, (∀ w, w ∈ words ↔ Source.IsWordOf slashSource.toList w) ∧
      ∀ n, (Reader.ofSource slashSource 8).answers n =
        (words.map (judged 8) ++ List.replicate n (noFurther slashSource)).take n) ∧
    (Reader.ofSource slashSource 8).answers 4 =
      [.error ⟨.wordTooLong 9 8, ⟨0, 9⟩, []⟩, .ok ⟨"walk//3", ⟨25, 32⟩⟩,
        .error ⟨.unexpectedEnd, ⟨39, 39⟩, []⟩, .error ⟨.unexpectedEnd, ⟨39, 39⟩, []⟩] := by
  have hlexemes : Source.lexemes slashSource =
      [.word ⟨"größe/2", ⟨0, 9⟩⟩, .word ⟨"walk//3", ⟨25, 32⟩⟩] := by
    decide +kernel
  have h : Source.NoStray slashSource.toList := Source.noStray_iff.2 (by simp [hlexemes])
  obtain ⟨words, hmem, -, -, -, -, hanswers, -⟩ := answers_are_words slashSource h
  exact ⟨h, ⟨words, hmem, hanswers 8⟩, by decide +kernel⟩

end Reader

end BehaviorEngine
