import Mathlib.Data.List.Forall2
import BehaviorEngine.Construction.Graph
import BehaviorEngine.Proofs.Registry

/-!
Two readings side by side. Two constructions that stand at corresponding places of two sources go on
alike: both give corresponding results and stand at corresponding places again, or both stop at
corresponding errors, unless the first one stops at an error that is excused. Which places
correspond is left open; all that is needed is that requests for a word go on alike.

The rules of this module follow the way constructions are put together.
-/

namespace BehaviorEngine

open Construct

/-- What corresponds in two readings. -/
structure Comparison where
  place : Span → Span → Prop
  cursor : Cursor → Cursor → Prop
  /-- The errors of the first reading after which nothing is said of the second one. -/
  excused : Cause → Span → Prop

namespace Comparison

variable {K : Comparison} {α β γ δ : Type}

/-! ### Correspondence -/

/-- The same word at corresponding places. -/
structure OnWords (K : Comparison) (w w' : Word) : Prop where
  text : w.text = w'.text
  place : K.place w.span w'.span

/-- The same error at corresponding places, in the same nodes. -/
structure OnErrors (K : Comparison) (e e' : ConstructionError) : Prop where
  cause : e.cause = e'.cause
  place : K.place e.span e'.span
  frames : List.Forall₂ (fun f f' => f.node = f'.node ∧ K.place f.span f'.span) e.frames e'.frames

/-- The same count at corresponding places. -/
structure OnCounts (K : Comparison) (n n' : Nat × Span) : Prop where
  count : n.1 = n'.1
  place : K.place n.2 n'.2

/-- Two readings have gone on alike; `A` tells which results correspond. -/
inductive OnOutcomes (K : Comparison) (A : α → β → Prop) :
    Except ConstructionError α × Cursor → Except ConstructionError β × Cursor → Prop
  | ok {a : α} {b : β} {c c' : Cursor} (h : A a b) (hc : K.cursor c c') :
      OnOutcomes K A (.ok a, c) (.ok b, c')
  | error {e e' : ConstructionError} {c c' : Cursor} (h : K.OnErrors e e') :
      OnOutcomes K A (.error e, c) (.error e', c')
  | excused {e : ConstructionError} {c : Cursor} {r : Except ConstructionError β × Cursor}
      (h : K.excused e.cause e.span) : OnOutcomes K A (.error e, c) r

/-- **Two constructions go on alike** from wherever they are. -/
def Beside (K : Comparison) (A : α → β → Prop) (x : Construct α) (y : Construct β) : Prop :=
  ∀ c c', K.cursor c c' → K.OnOutcomes A (x.runOn c) (y.runOn c')

/-- What has to be known of a comparison: words are requested alike. -/
structure Lawful (K : Comparison) : Prop where
  word : K.Beside K.OnWords word word
  last : ∀ c c', K.cursor c c' → K.place c.last c'.last

/-- Two registries have the same names and corresponding values. -/
def OnRegistries (A : α → β → Prop) (r : Registry α) (s : Registry β) : Prop :=
  List.Forall₂ (fun e f => e.1 = f.1 ∧ A e.2 f.2) r.entries s.entries

namespace OnRegistries

variable {A : α → β → Prop} {r : Registry α} {s : Registry β} {name : String}

theorem empty : OnRegistries A Registry.empty Registry.empty := .nil

theorem refl (r : Registry α) : OnRegistries Eq r r := List.forall₂_same.2 fun _ _ => ⟨rfl, rfl⟩

theorem names_eq (h : OnRegistries A r s) : r.names = s.names := by
  rw [Registry.names, Registry.names, ← List.forall₂_eq_eq_eq, List.forall₂_map_left_iff,
    List.forall₂_map_right_iff]
  exact h.imp fun _ _ h => h.1

/-- A name is found at the same position in both. -/
theorem find? (h : OnRegistries A r s) (name : String) :
    (r.find? name = none ∧ s.find? name = none) ∨
      ∃ i a b, r.find? name = some (i, a) ∧ s.find? name = some (i, b) ∧ A a b := by
  unfold Registry.find? Registry.position? Registry.at?
  rw [← h.names_eq]
  cases hi : r.names.idxOf? name with
  | none => exact .inl ⟨rfl, rfl⟩
  | some i =>
    have hvalues : List.Forall₂ A r.values s.values :=
      List.forall₂_map_left_iff.2 (List.forall₂_map_right_iff.2 (h.imp fun _ _ h => h.2))
    by_cases hr : i < r.values.length
    · have hs : i < s.values.length := hvalues.length_eq ▸ hr
      exact .inr ⟨i, r.values[i], s.values[i], by simp [hr], by simp [hs],
        hvalues.get hr hs⟩
    · have hs : ¬ i < s.values.length := hvalues.length_eq ▸ hr
      exact .inl ⟨by simp [List.getElem?_eq_none (Nat.le_of_not_lt hr)],
        by simp [List.getElem?_eq_none (Nat.le_of_not_lt hs)]⟩

end OnRegistries

/-! ### Sequences -/

namespace Beside

variable {A : α → β → Prop} {B : γ → δ → Prop} {x : Construct α} {y : Construct β}

theorem pure {a : α} {b : β} (h : A a b) :
    K.Beside A (Pure.pure a : Construct α) (Pure.pure b : Construct β) :=
  fun _ _ hc => .ok h hc

theorem bind {f : α → Construct γ} {g : β → Construct δ} (h : K.Beside A x y)
    (hf : ∀ a b, A a b → K.Beside B (f a) (g b)) : K.Beside B (x >>= f) (y >>= g) := by
  intro c c' hc
  have hxy := h c c' hc
  generalize hx : x.runOn c = r, hy : y.runOn c' = r' at hxy
  cases hxy with
  | ok hab hc' =>
    rw [Stateful.bind_of_ok hx, Stateful.bind_of_ok hy]
    exact hf _ _ hab _ _ hc'
  | error he =>
    rw [Stateful.bind_of_error hx, Stateful.bind_of_error hy]
    exact .error he
  | excused he =>
    rw [Stateful.bind_of_error hx]
    exact .excused he

/-- A sequence whose first part gives the same result in both. -/
theorem seq {y : Construct α} {f : α → Construct γ} {g : α → Construct δ} (h : K.Beside Eq x y)
    (hf : ∀ a, K.Beside B (f a) (g a)) : K.Beside B (x >>= f) (y >>= g) :=
  h.bind fun a _ hab => hab ▸ hf a

/-- A sequence whose last part only shapes the result. -/
theorem seq_pure {y : Construct α} (f : α → γ) (h : K.Beside Eq x y) :
    K.Beside Eq (x >>= fun a => Pure.pure (f a)) (y >>= fun a => Pure.pure (f a)) :=
  h.seq fun _ => pure rfl

theorem fail {cause : Cause} {span span' : Span} (h : K.place span span') :
    K.Beside A (Construct.fail cause span) (Construct.fail cause span') :=
  fun _ _ _ => .error ⟨rfl, h, .nil⟩

theorem within (node : Enclosing) {span span' : Span} (hs : K.place span span')
    (h : K.Beside A x y) :
    K.Beside A (Construct.within node span x) (Construct.within node span' y) := by
  intro c c' hc
  rw [within_runOn, within_runOn]
  have hxy := h c c' hc
  generalize x.runOn c = r, y.runOn c' = r' at hxy ⊢
  cases hxy with
  | ok hab hc' => exact .ok hab hc'
  | error he =>
    exact .error ⟨he.cause, he.place, List.rel_append he.frames (.cons ⟨rfl, hs⟩ .nil)⟩
  | excused he => exact .excused he

/-- A check in front of two constructions. -/
theorem check {p : Prop} [Decidable p] {x y : Construct PUnit} {f : PUnit → Construct γ}
    {g : PUnit → Construct δ} (h : K.Beside Eq x y) (hf : K.Beside B (f ⟨⟩) (g ⟨⟩)) :
    K.Beside B (if p then x >>= f else f ⟨⟩) (if p then y >>= g else g ⟨⟩) := by
  by_cases hp : p
  · rw [if_pos hp, if_pos hp]
    exact h.seq fun _ => hf
  · rw [if_neg hp, if_neg hp]
    exact hf

/-! ### Words -/

theorem tooDeep (hK : K.Lawful) (limits : Limits) :
    K.Beside A (Construct.tooDeep limits) (Construct.tooDeep limits) :=
  fun c c' hc => fail (hK.last c c' hc) c c' hc

theorem unknownTag (position : TagPosition) {tag tag' : Word} (h : K.OnWords tag tag') :
    K.Beside A (Construct.unknownTag position tag) (Construct.unknownTag position tag') := by
  unfold Construct.unknownTag
  rw [h.text]
  exact fail h.place

theorem value (hK : K.Lawful) : K.Beside Eq Construct.value Construct.value := by
  refine hK.word.bind fun w w' hw => ?_
  unfold Reader.valueOf
  rw [hw.text]
  cases (readDecimal? w'.text).filter Decimal.isFinite with
  | none => exact fail hw.place
  | some x => exact pure rfl

theorem count (hK : K.Lawful) : K.Beside K.OnCounts Construct.count Construct.count := by
  refine hK.word.bind fun w w' hw => ?_
  unfold Reader.countOf
  rw [hw.text]
  cases readCount? w'.text with
  | none => exact fail (A := K.OnCounts) hw.place
  | some n => exact pure ⟨rfl, hw.place⟩

theorem count_bind {f : Nat × Span → Construct γ} {g : Nat × Span → Construct δ} (hK : K.Lawful)
    (h : ∀ n span span', K.place span span' → K.Beside B (f (n, span)) (g (n, span'))) :
    K.Beside B (Construct.count >>= f) (Construct.count >>= g) := by
  refine (count hK).bind ?_
  rintro ⟨n, span⟩ ⟨_, span'⟩ ⟨rfl, hs⟩
  exact h n span span' hs

theorem truth (hK : K.Lawful) : K.Beside Eq Construct.truth Construct.truth := by
  refine hK.word.bind fun w w' hw => ?_
  rw [hw.text]
  split
  · exact pure rfl
  · exact pure rfl
  · exact fail hw.place

/-! ### Names -/

theorem resolve {r : Registry γ} {s : Registry δ} {name name' : Word} (kind : NameKind)
    (hr : OnRegistries B r s) (hname : K.OnWords name name') :
    K.Beside (fun a b => a.1 = b.1 ∧ B a.2 b.2) (Construct.resolve kind r name)
      (Construct.resolve kind s name') := by
  unfold Construct.resolve
  rw [hname.text]
  obtain ⟨hr, hs⟩ | ⟨i, a, b, hr, hs, hab⟩ := hr.find? name'.text
  · rw [hr, hs]
    exact fail hname.place
  · rw [hr, hs]
    exact pure ⟨rfl, hab⟩

/-- A name is looked up in the same registry. -/
theorem resolve_bind {r : Registry α} {name name' : Word} {kind : NameKind}
    {f g : Nat × α → Construct γ} {C : γ → γ → Prop} (hname : K.OnWords name name')
    (h : ∀ i a, K.Beside C (f (i, a)) (g (i, a))) :
    K.Beside C (Construct.resolve kind r name >>= f) (Construct.resolve kind r name' >>= g) := by
  refine (resolve (B := Eq) kind (.refl r) hname).bind ?_
  rintro ⟨i, a⟩ ⟨_, _⟩ ⟨rfl, rfl⟩
  exact h i a

theorem append {r : Registry γ} {s : Registry δ} {name name' : Word} {a : γ} {b : δ}
    (kind : NameKind) (hr : OnRegistries B r s) (hname : K.OnWords name name') (hab : B a b) :
    K.Beside (OnRegistries B) (Construct.append kind r name a)
      (Construct.append kind s name' b) := by
  unfold Construct.append
  rw [hname.text]
  by_cases hmem : name'.text ∈ r.names
  · rw [Registry.append_of_mem hmem, Registry.append_of_mem (hr.names_eq ▸ hmem)]
    exact fail hname.place
  · obtain ⟨r', hr', he⟩ := Registry.append_of_notMem hmem a
    obtain ⟨s', hs', hf⟩ := Registry.append_of_notMem (hr.names_eq ▸ hmem) b
    rw [hr', hs']
    refine pure ?_
    rw [OnRegistries, he, hf]
    exact List.rel_append hr (.cons ⟨rfl, hab⟩ .nil)

/-- An entry is added to the same registry. -/
theorem append_same {r : Registry γ} {name name' : Word} (kind : NameKind) (a : γ)
    (hname : K.OnWords name name') :
    K.Beside Eq (Construct.append kind r name a) (Construct.append kind r name' a) := by
  unfold Construct.append
  rw [hname.text]
  cases r.append name'.text a with
  | ok s => exact pure rfl
  | error e => exact fail hname.place

/-! ### Repetition -/

theorem iterate {f : α → Construct α} {g : β → Construct β}
    (h : ∀ a b, A a b → K.Beside A (f a) (g b)) (n : Nat) {a : α} {b : β} (hab : A a b) :
    K.Beside A (Construct.iterate f n a) (Construct.iterate g n b) := by
  induction n generalizing a b with
  | zero => exact pure hab
  | succ n ih => exact (h a b hab).bind fun _ _ hab' => ih hab'

/-- A step with the same result is carried out `n` times. -/
theorem iterate_same {f g : α → Construct α} (h : ∀ a, K.Beside Eq (f a) (g a)) (n : Nat) (a : α) :
    K.Beside Eq (Construct.iterate f n a) (Construct.iterate g n a) :=
  iterate (fun a _ hab => hab ▸ h a) n rfl

theorem many {x y : Construct α} (h : K.Beside Eq x y) (n : Nat) :
    K.Beside Eq (Construct.many n x) (Construct.many n y) :=
  iterate_same (fun xs => h.seq_pure fun a => xs ++ [a]) n []

/-- One item for each member of corresponding lists. -/
theorem mapM {f : α → Construct γ} {g : β → Construct γ}
    (h : ∀ a b, A a b → K.Beside Eq (f a) (g b)) {as : List α} {bs : List β}
    (hs : List.Forall₂ A as bs) : K.Beside Eq (as.mapM f) (bs.mapM g) := by
  induction hs with
  | nil =>
    rw [List.mapM_nil, List.mapM_nil]
    exact pure rfl
  | cons hab _ ih =>
    rw [List.mapM_cons, List.mapM_cons]
    exact (h _ _ hab).seq fun c => ih.seq_pure fun cs => c :: cs

end Beside

end Comparison

end BehaviorEngine
