import Mathlib.Logic.Equiv.Basic
import BehaviorEngine.Proofs.Registry

/-!
Registries with the same names in another order. A permutation of the positions takes each entry of
the one to the entry of the same name in the other, so a name is found in both or in neither, at
positions that correspond.
-/

namespace BehaviorEngine

/-! ### Lists -/

/-- A permutation of positions, behind a first one that stays where it is. -/
def shiftPositions (f : Equiv.Perm Nat) : Equiv.Perm Nat where
  toFun := Nat.rec 0 fun i _ => f i + 1
  invFun := Nat.rec 0 fun i _ => f.symm i + 1
  left_inv i := by
    cases i with
    | zero => rfl
    | succ i => exact congrArg (· + 1) (f.symm_apply_apply i)
  right_inv i := by
    cases i with
    | zero => rfl
    | succ i => exact congrArg (· + 1) (f.apply_symm_apply i)

/-- The same members in another order stand at permuted positions. -/
theorem exists_positions {α : Type} {xs ys : List α} (h : xs.Perm ys) :
    ∃ f : Equiv.Perm Nat, ∀ i, ys[f i]? = xs[i]? := by
  induction h with
  | nil => exact ⟨Equiv.refl Nat, fun _ => rfl⟩
  | cons x _ ih =>
    obtain ⟨f, hf⟩ := ih
    refine ⟨shiftPositions f, fun i => ?_⟩
    cases i with
    | zero => rfl
    | succ i => exact hf i
  | swap x y xs =>
    refine ⟨Equiv.swap 0 1, fun i => ?_⟩
    rcases i with _ | _ | i
    · rfl
    · rfl
    · rw [Equiv.swap_apply_of_ne_of_ne (by omega) (by omega)]
      rfl
  | trans _ _ ih ih' =>
    obtain ⟨f, hf⟩ := ih
    obtain ⟨f', hf'⟩ := ih'
    exact ⟨f.trans f', fun i => (hf' (f i)).trans (hf i)⟩

/-- A change at a position changes the other list at the position that corresponds. -/
theorem getElem?_set_positions {α : Type} {xs ys : List α} {f : Equiv.Perm Nat}
    (h : ∀ i, ys[f i]? = xs[i]?) (j : Nat) (x : α) (i : Nat) :
    (ys.set (f j) x)[f i]? = (xs.set j x)[i]? := by
  rw [List.getElem?_set', List.getElem?_set', h i]
  simp only [f.injective.eq_iff]

namespace Registry

variable {α β : Type} {f : Equiv.Perm Nat} {g : α → β} {r : Registry α} {s : Registry β}

/-- **One registry has the entries of another one at other positions**, with the images of their
values. -/
def Moves (f : Equiv.Perm Nat) (g : α → β) (r : Registry α) (s : Registry β) : Prop :=
  ∀ i, s.entries[f i]? = (r.entries[i]?).map fun e => (e.1, g e.2)

/-- The images of the values stand where the values stood. -/
theorem moves_map (g : α → β) (r : Registry α) : r.Moves (Equiv.refl Nat) g (r.map g) :=
  fun _ => List.getElem?_map

namespace Moves

theorem at? (h : r.Moves f g s) (i : Nat) : s.at? (f i) = (r.at? i).map g := by
  rw [at?_eq, at?_eq, h i, Option.map_map, Option.map_map]
  rfl

theorem name? (h : r.Moves f g s) (i : Nat) : s.name? (f i) = r.name? i := by
  rw [Registry.name?, Registry.name?, names_getElem?, names_getElem?, h i, Option.map_map]
  rfl

/-- **A name is found in both registries or in neither**, at corresponding positions. -/
theorem find? (h : r.Moves f g s) (name : String) :
    s.find? name = (r.find? name).map fun p => (f p.1, g p.2) := by
  refine Option.ext fun ⟨j, y⟩ => ?_
  obtain ⟨i, rfl⟩ := f.surjective j
  rw [find?_eq_some_iff, h i, Option.map_eq_some_iff, Option.map_eq_some_iff]
  constructor
  · rintro ⟨⟨_, x⟩, he, heq⟩
    cases heq
    exact ⟨(i, x), find?_eq_some_iff.2 he, rfl⟩
  · rintro ⟨⟨i', x⟩, he, heq⟩
    obtain ⟨hi, rfl⟩ := Prod.mk.inj heq
    obtain rfl := f.injective hi
    exact ⟨(name, x), find?_eq_some_iff.1 he, rfl⟩

end Moves

/-- **Registries in which the same is found under every name** differ in the order of their
entries. -/
theorem exists_moves (h : ∀ name, s.get? name = (r.get? name).map g) :
    ∃ f : Equiv.Perm Nat, r.Moves f g s := by
  have hmem : ∀ e, e ∈ r.entries.map (fun e => (e.1, g e.2)) ↔ e ∈ s.entries := by
    rintro ⟨name, y⟩
    rw [← get?_eq_some_iff, h name, Option.map_eq_some_iff, List.mem_map]
    constructor
    · rintro ⟨⟨_, x⟩, he, heq⟩
      cases heq
      exact ⟨x, get?_eq_some_iff.2 he, rfl⟩
    · rintro ⟨x, hx, rfl⟩
      exact ⟨(name, x), get?_eq_some_iff.1 hx, rfl⟩
  have hperm : (r.entries.map fun e => (e.1, g e.2)).Perm s.entries :=
    (List.perm_ext_iff_of_nodup (r.map g).nodup.of_map s.nodup.of_map).2 hmem
  obtain ⟨f, hf⟩ := exists_positions hperm
  exact ⟨f, fun i => (hf i).trans List.getElem?_map⟩

/-! ### Images -/

variable {name : String}

@[simp] theorem at?_map (g : α → β) (i : Nat) : (r.map g).at? i = (r.at? i).map g :=
  (moves_map g r).at? i

@[simp] theorem name?_map (g : α → β) (i : Nat) : (r.map g).name? i = r.name? i :=
  (moves_map g r).name? i

@[simp] theorem size_map (g : α → β) : (r.map g).size = r.size := List.length_map _

@[simp] theorem position?_map (g : α → β) : (r.map g).position? name = r.position? name := by
  rw [position?, names_map, position?]

/-- An entry is added to the images as it is to the values. -/
theorem append_map (g : α → β) (x : α) :
    (r.map g).append name (g x) = (r.append name x).map (Registry.map g) := by
  by_cases h : name ∈ r.names
  · rw [append_of_mem h, append_of_mem (by rwa [names_map])]
    rfl
  · obtain ⟨t, ht, he⟩ := append_of_notMem h x
    obtain ⟨u, hu, he'⟩ := append_of_notMem (r := r.map g) (by rwa [names_map]) (g x)
    rw [ht, hu]
    refine congrArg Except.ok (Registry.ext ?_)
    rw [he', entries_map, entries_map, he, List.map_append]
    rfl

/-- New values take the place of images as they take the place of values. -/
theorem map_withValues {γ : Type} (g : α → β) (xs : List γ) :
    (r.map g).withValues xs = r.withValues xs :=
  Registry.ext (congrArg (List.zip · xs) (names_map g))

/-- New values and then their images are the images of the new values. -/
theorem withValues_map {γ : Type} (g : β → γ) (xs : List β) :
    r.withValues (xs.map g) = (r.withValues xs).map g := by
  refine Registry.ext ?_
  rw [entries_map]
  exact List.zip_map_right

end Registry

end BehaviorEngine
