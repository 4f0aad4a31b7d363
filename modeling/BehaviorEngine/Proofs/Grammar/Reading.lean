import Mathlib.Data.List.Forall2
import BehaviorEngine.Construction.Graph
import BehaviorEngine.Proofs.Registry

/-!
Constructions as readers of a language. A construction reads a language of words and results if it
succeeds exactly when the words in front of it begin with words of the language, takes these words
away, and gives the result that goes with them. A language is a relation, so that this holds the two
halves at once: nothing else is accepted, and all of it is.

The rules of this module follow the way constructions are put together: the language of a sequence
is the concatenation of the languages of its parts.
-/

namespace BehaviorEngine

/-! ### Lists member by member -/

/-- Two lists agree member by member in what two functions tell of them. -/
theorem forall₂_iff_map_eq {α β κ : Type} {f : α → κ} {g : β → κ} {xs : List α} {ys : List β} :
    List.Forall₂ (fun x y => f x = g y) xs ys ↔ xs.map f = ys.map g := by
  rw [← List.forall₂_eq_eq_eq, List.forall₂_map_left_iff, List.forall₂_map_right_iff]

theorem forall₂_and {α β : Type} {R S : α → β → Prop} {xs : List α} {ys : List β} :
    List.Forall₂ (fun x y => R x y ∧ S x y) xs ys ↔
      List.Forall₂ R xs ys ∧ List.Forall₂ S xs ys := by
  simp only [List.forall₂_iff_zip]
  constructor
  · rintro ⟨hl, h⟩
    exact ⟨⟨hl, fun hm => (h hm).1⟩, hl, fun hm => (h hm).2⟩
  · rintro ⟨⟨hl, h⟩, -, h'⟩
    exact ⟨hl, fun hm => ⟨h hm, h' hm⟩⟩

theorem exists_of_forall₂ {α β : Type} {R : α → β → Prop} {xs : List α} {ys : List β}
    (h : List.Forall₂ R xs ys) {y : β} (hy : y ∈ ys) : ∃ x ∈ xs, R x y := by
  induction h with
  | nil => cases hy
  | @cons x _ xs _ h _ ih =>
    rcases List.mem_cons.1 hy with rfl | hy
    · exact ⟨x, by simp, h⟩
    · obtain ⟨x', hx', hR⟩ := ih hy
      exact ⟨x', by simp [hx'], hR⟩

/-! ### Folding a relation -/

/-- A relation carried through a list: each member takes the value so far to the next one. -/
inductive Folds {β τ : Type} (Q : β → τ → β → Prop) : β → List τ → β → Prop
  | nil {b : β} : Folds Q b [] b
  | cons {b b₁ b' : β} {t : τ} {ts : List τ} (h : Q b t b₁) (hs : Folds Q b₁ ts b') :
      Folds Q b (t :: ts) b'

namespace Folds

variable {τ γ κ : Type} {P : τ → γ → Prop} {key : γ → κ} {xs ys : List γ} {ts : List τ}

theorem concat_iff : Folds (fun xs t ys => ∃ y, ys = xs ++ [y] ∧ P t y) xs ts ys ↔
    ∃ zs, ys = xs ++ zs ∧ List.Forall₂ P ts zs := by
  constructor
  · intro h
    induction h with
    | nil => exact ⟨[], by simp, .nil⟩
    | cons h _ ih =>
      obtain ⟨y, rfl, hP⟩ := h
      obtain ⟨zs, rfl, hs⟩ := ih
      exact ⟨y :: zs, by simp, .cons hP hs⟩
  · rintro ⟨zs, rfl, h⟩
    induction h generalizing xs with
    | nil => simpa using Folds.nil
    | @cons t y ts zs hP _ ih =>
      have := @ih (xs ++ [y])
      rw [List.append_assoc] at this
      exact .cons ⟨y, rfl, hP⟩ this

theorem distinct_iff :
    Folds (fun xs t ys => ∃ y, ys = xs ++ [y] ∧ P t y ∧ key y ∉ xs.map key) xs ts ys ↔
    ∃ zs, ys = xs ++ zs ∧ List.Forall₂ P ts zs ∧ (zs.map key).Nodup ∧
      ∀ z ∈ zs, key z ∉ xs.map key := by
  constructor
  · intro h
    induction h with
    | nil => exact ⟨[], by simp, .nil, by simp, by simp⟩
    | cons h _ ih =>
      obtain ⟨y, rfl, hP, hy⟩ := h
      obtain ⟨zs, rfl, hs, hn, hd⟩ := ih
      refine ⟨y :: zs, by simp, .cons hP hs, ?_, ?_⟩
      · rw [List.map_cons, List.nodup_cons]
        refine ⟨fun hmem => ?_, hn⟩
        obtain ⟨z, hz, e⟩ := List.mem_map.1 hmem
        exact hd z hz (by simp [e])
      · intro z hz hmem
        rcases List.mem_cons.1 hz with rfl | hz
        · exact hy hmem
        · exact hd z hz (by simp only [List.map_append, List.mem_append]; exact .inl hmem)
  · rintro ⟨zs, rfl, h, hn, hd⟩
    induction h generalizing xs with
    | nil => simpa using Folds.nil
    | @cons t y ts zs hP _ ih =>
      rw [List.map_cons, List.nodup_cons] at hn
      refine .cons ⟨y, rfl, hP, hd y (by simp)⟩ ?_
      have := @ih (xs ++ [y]) hn.2 fun z hz hmem => ?_
      · rwa [List.append_assoc] at this
      · rw [List.map_append, List.mem_append] at hmem
        rcases hmem with hmem | hmem
        · exact hd z (by simp [hz]) hmem
        · exact hn.1 (by simp at hmem; rw [← hmem]; exact List.mem_map_of_mem hz)

end Folds

/-! ### Taking words away -/

/-- Requests for words take the given ones away and leave the cursor `c'`. -/
inductive Cursor.Consumes : Cursor → List String → Cursor → Prop
  | nil {c : Cursor} : Cursor.Consumes c [] c
  | cons {c c₁ c' : Cursor} {w : Word} {ts : List String} (h : Construct.word.runOn c = (.ok w, c₁))
      (hs : Cursor.Consumes c₁ ts c') : Cursor.Consumes c (w.text :: ts) c'

namespace Cursor

theorem consumes_nil {c c' : Cursor} : c.Consumes [] c' ↔ c' = c := by
  constructor
  · rintro ⟨⟩
    rfl
  · rintro rfl
    exact .nil

theorem consumes_cons {c c' : Cursor} {t : String} {ts : List String} :
    c.Consumes (t :: ts) c' ↔
      ∃ w c₁, Construct.word.runOn c = (.ok w, c₁) ∧ w.text = t ∧ c₁.Consumes ts c' := by
  constructor
  · rintro (_ | ⟨h, hs⟩)
    exact ⟨_, _, h, rfl, hs⟩
  · rintro ⟨w, c₁, h, rfl, hs⟩
    exact .cons h hs

theorem consumes_append {c c' : Cursor} {us vs : List String} :
    c.Consumes (us ++ vs) c' ↔ ∃ c₁, c.Consumes us c₁ ∧ c₁.Consumes vs c' := by
  induction us generalizing c with
  | nil => simp [consumes_nil]
  | cons u us ih =>
    rw [List.cons_append, consumes_cons]
    constructor
    · rintro ⟨w, c₁, h, rfl, hs⟩
      obtain ⟨c₂, h₂, h₃⟩ := ih.1 hs
      exact ⟨c₂, .cons h h₂, h₃⟩
    · rintro ⟨c₂, h₂, h₃⟩
      obtain ⟨w, c₁, h, rfl, hs⟩ := consumes_cons.1 h₂
      exact ⟨w, c₁, h, rfl, ih.2 ⟨c₂, hs, h₃⟩⟩

end Cursor

namespace Construct

variable {α β γ δ : Type}

/-! ### Languages -/

/-- **A construction reads a language**: with the words of the language, and only with them, it
succeeds; `view` is what the language tells of the result. -/
def Reads (view : α → β) (x : Construct α) (L : List String → β → Prop) : Prop :=
  ∀ c b c', (∃ a, view a = b ∧ x.runOn c = (.ok a, c')) ↔ ∃ ts, c.Consumes ts c' ∧ L ts b

namespace Reads

variable {view : α → β} {x : Construct α} {L M : List String → β → Prop}

theorem congr (h : Reads view x L) (hLM : ∀ ts b, L ts b ↔ M ts b) : Reads view x M := by
  intro c b c'
  rw [h c b c']
  simp only [hLM]

/-- What a construction that reads a language takes away. -/
theorem consumes (h : Reads view x L) {c c' : Cursor} {a : α} (hx : x.runOn c = (.ok a, c')) :
    ∃ ts, c.Consumes ts c' ∧ L ts (view a) := (h c (view a) c').1 ⟨a, rfl, hx⟩

theorem pure (view : α → β) (a : α) :
    Reads view (Pure.pure a : Construct α) (fun ts b => ts = [] ∧ b = view a) := by
  intro c b c'
  constructor
  · rintro ⟨a', rfl, h⟩
    cases h
    exact ⟨[], .nil, rfl, rfl⟩
  · rintro ⟨_, hc, rfl, rfl⟩
    obtain rfl := Cursor.consumes_nil.1 hc
    exact ⟨a, rfl, rfl⟩

theorem of_error (h : ∀ c, ∃ e c₁, x.runOn c = (.error e, c₁)) :
    Reads view x (fun _ _ => False) := by
  intro c b c'
  obtain ⟨e, c₁, he⟩ := h c
  simp [he]

theorem fail (view : α → β) (cause : Cause) (span : Span) :
    Reads view (Construct.fail cause span) (fun _ _ => False) :=
  of_error fun c => ⟨_, c, rfl⟩

/-- The language of a sequence. -/
theorem bind {f : α → Construct γ} {view' : γ → δ} {N : β → List String → δ → Prop}
    (hx : Reads view x L) (hf : ∀ a, Reads view' (f a) (N (view a))) :
    Reads view' (x >>= f) (fun ts d => ∃ us vs b, ts = us ++ vs ∧ L us b ∧ N b vs d) := by
  intro c d c'
  constructor
  · rintro ⟨g, rfl, h⟩
    obtain ⟨a, c₁, hxc, hfa⟩ := Stateful.bind_eq_ok_iff.1 h
    obtain ⟨us, hus, hL⟩ := hx.consumes hxc
    obtain ⟨vs, hvs, hN⟩ := (hf a).consumes hfa
    exact ⟨us ++ vs, Cursor.consumes_append.2 ⟨c₁, hus, hvs⟩, us, vs, view a, rfl, hL, hN⟩
  · rintro ⟨_, hc, us, vs, b, rfl, hL, hN⟩
    obtain ⟨c₁, hus, hvs⟩ := Cursor.consumes_append.1 hc
    obtain ⟨a, rfl, hxc⟩ := (hx c b c₁).2 ⟨us, hus, hL⟩
    obtain ⟨g, rfl, hfa⟩ := (hf a c₁ d c').2 ⟨vs, hvs, hN⟩
    exact ⟨g, rfl, Stateful.bind_eq_ok_iff.2 ⟨a, c₁, hxc, hfa⟩⟩

/-- A coarser view of the result. -/
theorem map_view (h : Reads view x L) (g : β → δ) :
    Reads (g ∘ view) x (fun ts d => ∃ b, L ts b ∧ d = g b) := by
  intro c d c'
  constructor
  · rintro ⟨a, rfl, hx⟩
    obtain ⟨ts, hc, hL⟩ := h.consumes hx
    exact ⟨ts, hc, view a, hL, rfl⟩
  · rintro ⟨ts, hc, b, hL, rfl⟩
    obtain ⟨a, rfl, hx⟩ := (h c b c').2 ⟨ts, hc, hL⟩
    exact ⟨a, rfl, hx⟩

/-- A registry is told by its entries. -/
theorem of_entries {x : Construct α} {view : α → Registry γ}
    {L : List String → List (String × γ) → Prop}
    (h : Reads (fun a => (view a).entries) x L) : Reads view x (fun ts r => L ts r.entries) := by
  intro c r c'
  rw [← h c r.entries c']
  simp only [← Registry.ext_iff]

/-- The language of a sequence whose first part is told by its result itself. -/
theorem seq {x : Construct β} {f : β → Construct γ} {view' : γ → δ}
    {N : β → List String → δ → Prop} (hx : Reads id x L) (hf : ∀ b, Reads view' (f b) (N b)) :
    Reads view' (x >>= f) (fun ts d => ∃ us vs b, ts = us ++ vs ∧ L us b ∧ N b vs d) :=
  hx.bind hf

/-- The language of a sequence whose last part only shapes the result. -/
theorem seq_pure {x : Construct β} {L : List String → β → Prop} (f : β → γ) (hx : Reads id x L) :
    Reads id (x >>= fun b => Pure.pure (f b)) (fun ts y => ∃ b, L ts b ∧ y = f b) := by
  refine (hx.seq fun b => pure id (f b)).congr fun ts y => ?_
  constructor
  · rintro ⟨us, _, b, rfl, hL, rfl, rfl⟩
    exact ⟨b, by simpa using hL, rfl⟩
  · rintro ⟨b, hL, rfl⟩
    exact ⟨ts, [], b, by simp, hL, rfl, rfl⟩

theorem within (node : Enclosing) (span : Span) (h : Reads view x L) :
    Reads view (Construct.within node span x) L := by
  intro c b c'
  rw [← h c b c', within_runOn]
  rcases x.runOn c with ⟨_ | _, _⟩ <;> simp [Except.mapError]

/-- A condition in front of a construction. -/
theorem guard {p : Prop} [Decidable p] {cause : Cause} {span : Span} {f : PUnit → Construct α}
    (h : ¬ p → Reads view (f ⟨⟩) L) :
    Reads view (if p then Construct.fail cause span >>= f else f ⟨⟩)
      (fun ts b => ¬ p ∧ L ts b) := by
  by_cases hp : p
  · rw [if_pos hp]
    refine congr (of_error fun c => ⟨_, c, rfl⟩) ?_
    simp [hp]
  · rw [if_neg hp]
    exact congr (h hp) (by simp [hp])

/-! ### Words -/

theorem word : Reads Word.text Construct.word (fun ts b => ts = [b]) := by
  intro c b c'
  constructor
  · rintro ⟨w, rfl, h⟩
    exact ⟨[w.text], .cons h .nil, rfl⟩
  · rintro ⟨_, hc, rfl⟩
    obtain ⟨w, c₁, h, rfl, hs⟩ := Cursor.consumes_cons.1 hc
    obtain rfl := Cursor.consumes_nil.1 hs
    exact ⟨w, rfl, h⟩

/-- The language of a sequence that begins with a word; the place of the word is of no account. -/
theorem word_bind {f : Word → Construct α} {N : Word → List String → β → Prop}
    (hN : ∀ t s s', N ⟨t, s⟩ = N ⟨t, s'⟩) (h : ∀ w, Reads view (f w) (N w)) :
    Reads view (Construct.word >>= f)
      (fun ts b => ∃ t us, ts = t :: us ∧ N ⟨t, default⟩ us b) := by
  refine (word.bind (N := fun t => N ⟨t, default⟩) fun w => ?_).congr fun ts b => ?_
  · exact (h w).congr fun ts b => by rw [hN w.text default w.span]
  · constructor
    · rintro ⟨_, vs, t, rfl, rfl, hN⟩
      exact ⟨t, vs, rfl, hN⟩
    · rintro ⟨t, us, rfl, hN⟩
      exact ⟨[t], us, t, rfl, rfl, hN⟩

theorem count : Reads Prod.fst Construct.count
    (fun ts n => ∃ t, ts = [t] ∧ readCount? t = some n) := by
  have h : ∀ w : Word, Reads Prod.fst
      (do let n ← liftM (Reader.countOf w); Pure.pure (n, w.span) : Construct (Nat × Span))
      (fun ts n => ts = [] ∧ readCount? w.text = some n) := by
    intro w
    unfold Reader.countOf
    cases hn : readCount? w.text with
    | none => exact (of_error fun c => ⟨_, c, rfl⟩).congr (by simp)
    | some n => exact (pure Prod.fst (n, w.span)).congr (by simp [eq_comm])
  exact (word_bind (fun _ _ _ => rfl) h).congr (by simp)

theorem count_bind {f : Nat × Span → Construct α} {N : Nat → List String → β → Prop}
    (h : ∀ n span, Reads view (f (n, span)) (N n)) :
    Reads view (Construct.count >>= f)
      (fun ts b => ∃ t us n, ts = t :: us ∧ readCount? t = some n ∧ N n us b) := by
  refine (count.bind (N := N) fun a => h a.1 a.2).congr fun ts b => ?_
  constructor
  · rintro ⟨_, vs, n, rfl, ⟨t, rfl, hn⟩, hN⟩
    exact ⟨t, vs, n, rfl, hn, hN⟩
  · rintro ⟨t, us, n, rfl, hn, hN⟩
    exact ⟨[t], us, n, rfl, ⟨t, rfl, hn⟩, hN⟩

theorem value : Reads id Construct.value
    (fun ts x => ∃ t, ts = [t] ∧ readDecimal? t = some x ∧ x.isFinite = true) := by
  have h : ∀ w : Word, Reads id (liftM (Reader.valueOf w) : Construct Decimal)
      (fun ts x => ts = [] ∧ readDecimal? w.text = some x ∧ x.isFinite = true) := by
    intro w
    unfold Reader.valueOf
    cases hn : (readDecimal? w.text).filter Decimal.isFinite with
    | none =>
      refine (of_error fun c => ⟨_, c, rfl⟩).congr fun ts b => ?_
      rw [← Option.filter_eq_some_iff, hn]
      simp
    | some x =>
      refine (pure id x).congr fun ts b => ?_
      rw [← Option.filter_eq_some_iff, hn]
      simp [eq_comm]
  exact (word_bind (fun _ _ _ => rfl) h).congr (by simp)

theorem truth : Reads id Construct.truth
    (fun ts b => ts = [if b then "true" else "false"]) := by
  unfold Construct.truth
  refine (word_bind (N := fun w ts b => ts = [] ∧ w.text = if b then "true" else "false")
    (fun _ _ _ => rfl) fun w => ?_).congr fun ts b => ?_
  · split
    · next h => exact (pure id true).congr (by simp [h])
    · next h => exact (pure id false).congr (by simp [h])
    · next h₁ h₂ =>
      refine (fail id _ _).congr fun ts b => ?_
      cases b
      · simpa using fun _ => h₂
      · simpa using fun _ => h₁
  · constructor
    · rintro ⟨t, us, rfl, rfl, rfl⟩
      rfl
    · rintro rfl
      exact ⟨_, [], rfl, rfl, rfl⟩

/-! ### Names -/

theorem resolve (kind : NameKind) (r : Registry γ) (name : Word) :
    Reads id (Construct.resolve kind r name)
      (fun ts p => ts = [] ∧ r.entries[p.1]? = some (name.text, p.2)) := by
  unfold Construct.resolve
  cases hr : r.find? name.text with
  | none =>
    refine (of_error fun c => ⟨_, c, rfl⟩).congr fun ts p => ?_
    simp [← Registry.find?_eq_some_iff, hr]
  | some found =>
    refine (pure id found).congr fun ts p => ?_
    rw [← Registry.find?_eq_some_iff, hr, Option.some_inj]
    simp [eq_comm]

theorem resolve_bind {kind : NameKind} {r : Registry γ} {name : Word} {f : Nat × γ → Construct α}
    {N : Nat → γ → List String → β → Prop} (h : ∀ i y, Reads view (f (i, y)) (N i y)) :
    Reads view (Construct.resolve kind r name >>= f)
      (fun ts b => ∃ i y, r.entries[i]? = some (name.text, y) ∧ N i y ts b) := by
  refine ((resolve kind r name).seq fun p => h p.1 p.2).congr fun ts b => ?_
  constructor
  · rintro ⟨_, vs, ⟨i, y⟩, rfl, ⟨rfl, hi⟩, hN⟩
    exact ⟨i, y, hi, hN⟩
  · rintro ⟨i, y, hi, hN⟩
    exact ⟨[], ts, (i, y), rfl, ⟨rfl, hi⟩, hN⟩

/-- The language of an insertion, told by the entries. -/
theorem append (kind : NameKind) (r : Registry γ) (name : Word) (y : γ) :
    Reads Registry.entries (Construct.append kind r name y)
      (fun ts es => ts = [] ∧ es = r.entries ++ [(name.text, y)] ∧ name.text ∉ r.names) := by
  unfold Construct.append
  by_cases h : name.text ∈ r.names
  · rw [Registry.append_of_mem h]
    exact (fail _ _ _).congr (by simp [h])
  · obtain ⟨s, hs, he⟩ := Registry.append_of_notMem h y
    rw [hs]
    exact (pure _ s).congr (by simp [h, he])

/-- The language of an insertion, told by what a function makes of the entries. -/
theorem append_map (f : γ → δ) (kind : NameKind) (r : Registry γ) (name : Word) (y : γ) :
    Reads (fun r => (r.map f).entries) (Construct.append kind r name y)
      (fun ts es => ts = [] ∧ es = (r.map f).entries ++ [(name.text, f y)] ∧
        name.text ∉ r.names) := by
  refine ((append kind r name y).map_view fun es => es.map fun e => (e.1, f e.2)).congr
    fun ts es => ?_
  constructor
  · rintro ⟨_, ⟨rfl, rfl, hn⟩, rfl⟩
    exact ⟨rfl, by simp [Registry.entries_map], hn⟩
  · rintro ⟨rfl, rfl, hn⟩
    exact ⟨_, ⟨rfl, rfl, hn⟩, by simp [Registry.entries_map]⟩

/-! ### Repetition -/

section Repetition

variable {τ ι : Type} {spell : τ → List String}

/-- A step that is carried out `n` times reads `n` parts one after another. -/
theorem iterate {step : α → Construct α} {Q : β → τ → β → Prop}
    (h : ∀ a, Reads view (step a) (fun ts b => ∃ t, spell t = ts ∧ Q (view a) t b))
    (n : Nat) (a : α) :
    Reads view (Construct.iterate step n a)
      (fun ts b => ∃ trees, trees.flatMap spell = ts ∧ trees.length = n ∧ Folds Q (view a) trees b)
      := by
  induction n generalizing a with
  | zero =>
    refine (pure view a).congr fun ts b => ?_
    constructor
    · rintro ⟨rfl, rfl⟩
      exact ⟨[], rfl, rfl, .nil⟩
    · rintro ⟨trees, rfl, hn, hf⟩
      obtain rfl := List.eq_nil_of_length_eq_zero hn
      cases hf
      exact ⟨rfl, rfl⟩
  | succ n ih =>
    refine ((h a).bind (N := fun b vs b' => ∃ trees, trees.flatMap spell = vs ∧ trees.length = n ∧
      Folds Q b trees b') ih).congr fun ts b => ?_
    constructor
    · rintro ⟨_, _, b₁, rfl, ⟨t, rfl, hQ⟩, trees, rfl, rfl, hf⟩
      exact ⟨t :: trees, rfl, rfl, .cons hQ hf⟩
    · rintro ⟨trees, rfl, hn, hf⟩
      cases hf with
      | nil => cases hn
      | cons hQ hf =>
        exact ⟨_, _, _, List.flatMap_cons, ⟨_, rfl, hQ⟩, _, rfl, Nat.succ.inj hn, hf⟩

/-- Items read one after another, each of them the next one of a list. -/
theorem many {item : Construct α} {P : τ → α → Prop}
    (h : Reads id item (fun ts a => ∃ t, spell t = ts ∧ P t a)) (n : Nat) :
    Reads id (Construct.many n item)
      (fun ts as => ∃ trees, trees.flatMap spell = ts ∧ trees.length = n ∧
        List.Forall₂ P trees as) := by
  have hstep : ∀ xs : List α, Reads id (do Pure.pure (xs ++ [← item]))
      (fun ts ys => ∃ t, spell t = ts ∧ ∃ y, ys = xs ++ [y] ∧ P t y) := by
    intro xs
    refine (h.seq_pure fun y => xs ++ [y]).congr fun ts ys => ?_
    constructor
    · rintro ⟨y, ⟨t, ht, hP⟩, rfl⟩
      exact ⟨t, ht, y, rfl, hP⟩
    · rintro ⟨t, ht, y, rfl, hP⟩
      exact ⟨y, ⟨t, ht, hP⟩, rfl⟩
  refine (iterate (Q := fun xs t ys => ∃ y, ys = xs ++ [y] ∧ P t y) hstep n []).congr
    fun ts ys => ?_
  simp only [Folds.concat_iff]
  simp

/-- Named items read one after another, no name twice. -/
theorem iterate_distinct {κ : Type} {step : α → Construct α} {view : α → List γ}
    {P : τ → γ → Prop} {key : γ → κ} (h : ∀ a, Reads view (step a) (fun ts ys =>
      ∃ t, spell t = ts ∧ ∃ y, ys = view a ++ [y] ∧ P t y ∧ key y ∉ (view a).map key))
    (n : Nat) {a : α} (ha : view a = []) :
    Reads view (Construct.iterate step n a)
      (fun ts ys => ∃ trees, trees.flatMap spell = ts ∧ trees.length = n ∧
        List.Forall₂ P trees ys ∧ (ys.map key).Nodup) := by
  refine (iterate (Q := fun xs t ys => ∃ y, ys = xs ++ [y] ∧ P t y ∧ key y ∉ xs.map key) h n
    a).congr fun ts ys => ?_
  simp only [ha, Folds.distinct_iff]
  simp

/-- One item for each member of a list. -/
theorem mapM {f : ι → Construct α} {A : ι → τ → Prop} {B : ι → α → Prop} {C : τ → α → Prop}
    (h : ∀ x, Reads id (f x) (fun ts a => ∃ t, spell t = ts ∧ A x t ∧ B x a ∧ C t a))
    (xs : List ι) :
    Reads id (xs.mapM f)
      (fun ts as => ∃ trees, trees.flatMap spell = ts ∧ List.Forall₂ A xs trees ∧
        List.Forall₂ B xs as ∧ List.Forall₂ C trees as) := by
  induction xs with
  | nil =>
    rw [List.mapM_nil]
    refine (pure id []).congr fun ts as => ?_
    constructor
    · rintro ⟨rfl, rfl⟩
      exact ⟨[], rfl, .nil, .nil, .nil⟩
    · rintro ⟨_, rfl, ⟨⟩, ⟨⟩, ⟨⟩⟩
      exact ⟨rfl, rfl⟩
  | cons x xs ih =>
    rw [List.mapM_cons]
    refine ((h x).seq fun a => ih.seq fun as => pure id (a :: as)).congr fun ts as => ?_
    constructor
    · rintro ⟨_, _, a, rfl, ⟨t, rfl, hA, hB, hC⟩, _, _, as, rfl, ⟨trees, rfl, hAs, hBs, hCs⟩,
        rfl, rfl⟩
      exact ⟨t :: trees, by simp, .cons hA hAs, .cons hB hBs, .cons hC hCs⟩
    · rintro ⟨_, rfl, hA, hB, hC⟩
      cases hA with
      | cons hA hAs =>
        cases hB with
        | cons hB hBs =>
          cases hC with
          | cons hC hCs =>
            exact ⟨_, _, _, List.flatMap_cons, ⟨_, rfl, hA, hB, hC⟩, _, [], _, by simp,
              ⟨_, rfl, hAs, hBs, hCs⟩, rfl, rfl⟩

end Repetition

end Reads

/-! ### Up to the end -/

/-- A construction accepts a language if it succeeds exactly when all that is left is a word list
of the language. -/
def Accepts (x : Construct α) (L : List String → α → Prop) : Prop :=
  ∀ c a, (∃ c', x.runOn c = (.ok a, c')) ↔ ∃ ts c', c.Consumes ts c' ∧ c'.reader.rest = [] ∧ L ts a

namespace Accepts

variable {x : Construct α} {L M : List String → α → Prop}

theorem congr (h : Accepts x L) (hLM : ∀ ts a, L ts a ↔ M ts a) : Accepts x M := by
  intro c a
  rw [h c a]
  simp only [hLM]

/-- The language of a sequence. -/
theorem bind {view : α → β} {L : List String → β → Prop} {f : α → Construct γ}
    {N : β → List String → γ → Prop} (hx : Reads view x L) (hf : ∀ a, Accepts (f a) (N (view a))) :
    Accepts (x >>= f) (fun ts d => ∃ us vs b, ts = us ++ vs ∧ L us b ∧ N b vs d) := by
  intro c d
  constructor
  · rintro ⟨c', h⟩
    obtain ⟨a, c₁, hxc, hfa⟩ := Stateful.bind_eq_ok_iff.1 h
    obtain ⟨us, hus, hL⟩ := hx.consumes hxc
    obtain ⟨vs, c₂, hvs, he, hN⟩ := (hf a c₁ d).1 ⟨c', hfa⟩
    exact ⟨us ++ vs, c₂, Cursor.consumes_append.2 ⟨c₁, hus, hvs⟩, he, us, vs, view a, rfl, hL, hN⟩
  · rintro ⟨_, c', hc, he, us, vs, b, rfl, hL, hN⟩
    obtain ⟨c₁, hus, hvs⟩ := Cursor.consumes_append.1 hc
    obtain ⟨a, rfl, hxc⟩ := (hx c b c₁).2 ⟨us, hus, hL⟩
    obtain ⟨c₂, hfa⟩ := (hf a c₁ d).2 ⟨vs, c', hvs, he, hN⟩
    exact ⟨c₂, Stateful.bind_eq_ok_iff.2 ⟨a, c₁, hxc, hfa⟩⟩

/-- The language of a sequence whose first part is told by its result itself. -/
theorem seq {L : List String → β → Prop} {y : Construct β} {f : β → Construct γ}
    {N : β → List String → γ → Prop} (hx : Reads id y L) (hf : ∀ b, Accepts (f b) (N b)) :
    Accepts (y >>= f) (fun ts d => ∃ us vs b, ts = us ++ vs ∧ L us b ∧ N b vs d) :=
  bind hx hf

theorem count_bind {f : Nat × Span → Construct α} {N : Nat → List String → α → Prop}
    (h : ∀ n span, Accepts (f (n, span)) (N n)) :
    Accepts (Construct.count >>= f)
      (fun ts a => ∃ t us n, ts = t :: us ∧ readCount? t = some n ∧ N n us a) := by
  refine (bind (N := N) Reads.count fun p => h p.1 p.2).congr fun ts a => ?_
  constructor
  · rintro ⟨_, vs, n, rfl, ⟨t, rfl, hn⟩, hN⟩
    exact ⟨t, vs, n, rfl, hn, hN⟩
  · rintro ⟨t, us, n, rfl, hn, hN⟩
    exact ⟨[t], us, n, rfl, ⟨t, rfl, hn⟩, hN⟩

/-- A condition in front of a construction. -/
theorem guard {p : Prop} [Decidable p] {cause : Cause} {span : Span} {f : PUnit → Construct α}
    (h : Accepts (f ⟨⟩) L) :
    Accepts (if p then Construct.fail cause span >>= f else f ⟨⟩) (fun ts a => ¬ p ∧ L ts a) := by
  by_cases hp : p
  · rw [if_pos hp]
    intro c a
    constructor
    · rintro ⟨c', hc'⟩
      cases hc'
    · rintro ⟨_, _, _, _, hn, _⟩
      exact absurd hp hn
  · rw [if_neg hp]
    exact h.congr (by simp [hp])

/-- The end, and the result. -/
theorem finish (a : α) :
    Accepts (Construct.finish >>= fun _ => Pure.pure a) (fun ts b => ts = [] ∧ b = a) := by
  intro c b
  constructor
  · rintro ⟨c', h⟩
    obtain ⟨_, c₁, hend, ⟨⟩⟩ := Stateful.bind_eq_ok_iff.1 h
    exact ⟨[], c, .nil, Reader.finish_eq_ok_iff.1 (congrArg Prod.fst hend), rfl, rfl⟩
  · rintro ⟨_, c', hc, he, rfl, rfl⟩
    obtain rfl := Cursor.consumes_nil.1 hc
    have hend := Reader.finish_eq_ok_iff.2 he
    exact ⟨_, Stateful.bind_of_ok (by rw [finish_runOn, hend])⟩

end Accepts

end Construct

end BehaviorEngine
