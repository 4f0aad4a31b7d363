import Mathlib.Data.List.Basic
import Mathlib.Data.List.Nodup
import BehaviorEngine.Registry

/-!
Facts about registries: a name is found at the only position where it stands, an entry is added
exactly if its name is new, and a registry is determined by its names and its values.
-/

namespace BehaviorEngine

namespace Registry

variable {α β : Type} {r s : Registry α} {name : String} {i : Nat} {x : α}

/-! ### Positions -/

theorem position?_isSome : (r.position? name).isSome = r.contains name := by
  rw [Bool.eq_iff_iff, Option.isSome_iff_ne_none, Ne, position?_eq_none_iff, not_not, contains,
    List.contains_iff_mem]

theorem at?_isSome_iff : (∃ x, r.at? i = some x) ↔ i < r.size := by
  rw [at?_eq, size]
  constructor
  · rintro ⟨x, h⟩
    obtain ⟨e, he, -⟩ := Option.map_eq_some_iff.1 h
    exact (List.getElem?_eq_some_iff.1 he).1
  · intro h
    exact ⟨_, by rw [List.getElem?_eq_getElem h, Option.map_some]⟩

theorem name?_isSome_iff : (∃ name, r.name? i = some name) ↔ i < r.size := by
  rw [← names_length]
  constructor
  · rintro ⟨name, h⟩
    exact (List.getElem?_eq_some_iff.1 h).1
  · exact fun h => ⟨_, List.getElem?_eq_getElem h⟩

/-- A name stands at one position. -/
theorem name?_inj {j : Nat} (hi : r.name? i = some name) (hj : r.name? j = some name) : i = j :=
  Option.some_inj.1 ((position?_eq_some_iff.2 hi).symm.trans (position?_eq_some_iff.2 hj))

theorem exists_entry (h : r.names[i]? = some name) : ∃ x, r.entries[i]? = some (name, x) := by
  rw [names_getElem?] at h
  obtain ⟨e, he, rfl⟩ := Option.map_eq_some_iff.1 h
  exact ⟨e.2, he⟩

/-! ### Entries -/

theorem entries_empty : (empty : Registry α).entries = [] := rfl

theorem entries_eq_zip : r.entries = r.names.zip r.values := by
  simp [names, values, List.zip_map']

/-- A registry is determined by its names and its values. -/
theorem ext_names_values (hn : r.names = s.names) (hv : r.values = s.values) : r = s := by
  ext1
  rw [entries_eq_zip, hn, hv, ← entries_eq_zip]

theorem names_of_entries_concat (h : s.entries = r.entries ++ [(name, x)]) :
    s.names = r.names ++ [name] := by
  rw [names, h, List.map_append]
  rfl

/-- A name that is added has the position behind all others. -/
theorem position?_of_entries_concat (h : s.entries = r.entries ++ [(name, x)]) (n : String) :
    s.position? n = if name = n then some r.size else r.position? n := by
  have hnames := names_of_entries_concat h
  split
  · next heq =>
    rw [position?_eq_some_iff, hnames, ← names_length, heq]
    simp
  · next hne =>
    refine Option.ext fun i => ?_
    rw [position?_eq_some_iff, position?_eq_some_iff, hnames, List.getElem?_append]
    split
    · rfl
    · next hle =>
      rw [List.getElem?_eq_none (Nat.not_lt.1 hle)]
      simp [List.getElem?_singleton, hne]

@[simp] theorem names_map (f : α → β) : (r.map f).names = r.names := by
  simp [map, names, Function.comp_def]

@[simp] theorem values_map (f : α → β) : (r.map f).values = r.values.map f := by
  simp [map, values, Function.comp_def]

theorem entries_map (f : α → β) : (r.map f).entries = r.entries.map fun e => (e.1, f e.2) := rfl

theorem get?_eq_some_iff : r.get? name = some x ↔ (name, x) ∈ r.entries := by
  rw [List.mem_iff_getElem?]
  constructor
  · intro h
    obtain ⟨i, hi, hx⟩ := Option.bind_eq_some_iff.1 h
    exact ⟨i, find?_eq_some_iff.1 (by simp [find?, hi, hx])⟩
  · rintro ⟨i, h⟩
    have hp : r.position? name = some i := by simp [position?_eq_some_iff, names_getElem?, h]
    simp [get?, hp, at?_eq, h]

/-! ### Scans -/

theorem position?_eq_findIdx? (r : Registry α) (name : String) :
    r.position? name = r.entries.findIdx? (·.1 == name) := List.findIdx?_map

theorem contains_eq_any (r : Registry α) (name : String) :
    r.contains name = r.entries.any (·.1 == name) := by
  rw [contains, names, List.contains_eq_any_beq, List.any_map]
  exact congrArg r.entries.any (funext fun e => BEq.comm)

theorem get?_eq_find? (r : Registry α) (name : String) :
    r.get? name = (r.entries.find? (·.1 == name)).map Prod.snd := by
  refine Option.ext fun y => ?_
  rw [Option.map_eq_some_iff]
  constructor
  · intro h
    have hmem := get?_eq_some_iff.1 h
    cases he : r.entries.find? (·.1 == name) with
    | none => exact absurd (by simp) (List.find?_eq_none.1 he _ hmem)
    | some e =>
      obtain rfl : e.1 = name := by simpa using List.find?_some he
      have hget : r.get? e.1 = some e.2 := get?_eq_some_iff.2 (List.mem_of_find?_eq_some he)
      exact ⟨e, rfl, Option.some.inj (hget.symm.trans h)⟩
  · rintro ⟨e, he, rfl⟩
    obtain rfl : e.1 = name := by simpa using List.find?_some he
    exact get?_eq_some_iff.2 (List.mem_of_find?_eq_some he)

/-! ### Storing -/

/-- Storing a value under a name leaves the other entries as they are. -/
theorem mem_put_iff {other : String} {y : α} : (other, y) ∈ (r.put name x).entries ↔
    (other = name ∧ y = x) ∨ (other ≠ name ∧ (other, y) ∈ r.entries) := by
  unfold put
  by_cases h : name ∈ r.names
  · obtain ⟨i, hi⟩ := List.mem_iff_getElem?.1 h
    have hother : ∀ j, r.names[j]? = some name ↔ j = i := fun j =>
      ⟨fun hj => Option.some_inj.1 ((position?_eq_some_iff.2 hj).symm.trans
        (position?_eq_some_iff.2 hi)), fun hj => hj ▸ hi⟩
    rw [append_of_mem h, modify, position?_eq_some_iff.2 hi]
    simp only [modifyAt, List.mem_iff_getElem?, List.getElem?_modify]
    rw [names_getElem?] at hi
    obtain ⟨⟨_, old⟩, hentry, rfl⟩ := Option.map_eq_some_iff.1 hi
    constructor
    · rintro ⟨j, hj⟩
      obtain ⟨e, he, hj⟩ := Option.map_eq_some_iff.1 hj
      by_cases hij : i = j
      · subst hij
        obtain rfl := Option.some_inj.1 (hentry.symm.trans he)
        simp only [if_true, Prod.mk.injEq] at hj
        exact .inl ⟨hj.1.symm, hj.2.symm⟩
      · rw [if_neg hij] at hj
        subst hj
        refine .inr ⟨fun hname => hij ((hother j).1 ?_).symm, j, he⟩
        rw [names_getElem?, he, ← hname]
        rfl
    · rintro (⟨rfl, rfl⟩ | ⟨hne, j, hj⟩)
      · exact ⟨i, by simp [hentry]⟩
      · have hij : i ≠ j := by
          rintro rfl
          exact hne (congrArg Prod.fst (Option.some_inj.1 (hj.symm.trans hentry)))
        exact ⟨j, by simp [hj, hij]⟩
  · obtain ⟨s, hs, he⟩ := append_of_notMem h x
    rw [hs, he, List.mem_append, List.mem_singleton, Prod.mk.injEq]
    constructor
    · rintro (hmem | hnew)
      · exact .inr ⟨fun e => h (e ▸ List.mem_map_of_mem hmem), hmem⟩
      · exact .inl hnew
    · rintro (hnew | ⟨-, hmem⟩)
      · exact .inr hnew
      · exact .inl hmem

@[simp] theorem get?_put_self : (r.put name x).get? name = some x :=
  get?_eq_some_iff.2 (mem_put_iff.2 (.inl ⟨rfl, rfl⟩))

theorem get?_put_of_ne {other : String} (h : other ≠ name) :
    (r.put name x).get? other = r.get? other := by
  refine Option.ext fun y => ?_
  rw [get?_eq_some_iff, get?_eq_some_iff, mem_put_iff]
  simp [h]

/-! ### Values of names -/

theorem mem_names_iff : name ∈ r.names ↔ ∃ x, r.get? name = some x := by
  rw [names, List.mem_map]
  constructor
  · rintro ⟨⟨_, x⟩, he, rfl⟩
    exact ⟨x, get?_eq_some_iff.2 he⟩
  · rintro ⟨x, hx⟩
    exact ⟨(name, x), get?_eq_some_iff.1 hx, rfl⟩

theorem get?_eq_none_iff : r.get? name = none ↔ name ∉ r.names := by
  rw [mem_names_iff, Option.eq_none_iff_forall_ne_some, not_exists]

theorem find?_get? (h : r.find? name = some (i, x)) : r.get? name = some x :=
  get?_eq_some_iff.2 (List.mem_of_getElem? (find?_eq_some_iff.1 h))

/-- An entry that is added is found under its name, which was new. -/
theorem get?_of_append (h : r.append name x = .ok s) :
    r.get? name = none ∧ ∀ n, s.get? n = if n = name then some x else r.get? n := by
  by_cases hmem : name ∈ r.names
  · rw [append_of_mem hmem] at h
    cases h
  · obtain ⟨s', hs', he⟩ := append_of_notMem hmem x
    obtain rfl := Except.ok.inj (hs'.symm.trans h)
    refine ⟨get?_eq_none_iff.2 hmem, fun n => Option.ext fun y => ?_⟩
    rw [get?_eq_some_iff, he, List.mem_append, List.mem_singleton]
    split
    · next hn =>
      subst hn
      have hnone : (n, y) ∉ r.entries := fun hy => hmem (List.mem_map_of_mem hy)
      simp [hnone, eq_comm]
    · next hn => simp [hn, get?_eq_some_iff]

/-- A value that is changed is found changed under its name. -/
theorem get?_modifyAt (h : r.find? name = some (i, x)) (f : α → α) (n : String) :
    (r.modifyAt i f).get? n = if n = name then some (f x) else r.get? n := by
  have hi := find?_eq_some_iff.1 h
  refine Option.ext fun y => ?_
  rw [get?_eq_some_iff, List.mem_iff_getElem?]
  simp only [modifyAt, List.getElem?_modify]
  split
  · next hn =>
    subst hn
    constructor
    · rintro ⟨j, hj⟩
      obtain ⟨e, he, hj⟩ := Option.map_eq_some_iff.1 hj
      by_cases hij : i = j
      · subst hij
        obtain rfl := Option.some_inj.1 (hi.symm.trans he)
        simpa using hj
      · rw [if_neg hij] at hj
        subst hj
        exact absurd (name?_inj (by rw [name?, names_getElem?, hi]; rfl)
          (by rw [name?, names_getElem?, he]; rfl)) hij
    · intro hy
      exact ⟨i, by simpa [hi] using hy⟩
  · next hn =>
    rw [get?_eq_some_iff, List.mem_iff_getElem?]
    refine exists_congr fun j => ?_
    by_cases hij : i = j
    · subst hij
      simp [hi, Ne.symm hn]
    · simp [hij]

/-- A name that is looked up is there afterwards, with its old value if it was there before; no
other name is touched. -/
theorem positionOrInsert_spec (r : Registry α) (name : String) (make : Unit → α) :
    (r.positionOrInsert name make).2.find? name =
      some ((r.positionOrInsert name make).1, (r.get? name).getD (make ())) ∧
    ∀ n, (r.positionOrInsert name make).2.get? n =
      if n = name then some ((r.get? name).getD (make ())) else r.get? n := by
  by_cases hmem : name ∈ r.names
  · obtain ⟨x, hx⟩ := mem_names_iff.1 hmem
    obtain ⟨i, hi⟩ := List.mem_iff_getElem?.1 hmem
    rw [positionOrInsert_of_mem hmem, hx, Option.getD_some]
    refine ⟨?_, fun n => ?_⟩
    · rw [positionOrInsert, position?_eq_some_iff.2 hi]
      rw [get?, position?_eq_some_iff.2 hi] at hx
      simp only [Option.bind_some] at hx
      simp [find?, position?_eq_some_iff.2 hi, hx]
    · split
      · next hn => rw [hn, hx]
      · rfl
  · obtain ⟨hposition, hentries⟩ := positionOrInsert_of_notMem hmem make
    have happend : r.append name (make ()) = .ok (r.positionOrInsert name make).2 := by
      obtain ⟨t, ht, he⟩ := append_of_notMem hmem (make ())
      rw [ht, Registry.ext (he.trans hentries.symm)]
    rw [get?_eq_none_iff.2 hmem, Option.getD_none]
    refine ⟨?_, (get?_of_append happend).2⟩
    rw [find?_eq_some_iff, hposition, hentries, size]
    simp

/-- Names keep their positions when another one is looked up. -/
theorem name?_positionOrInsert (make : Unit → α) {other : String} (h : r.name? i = some other) :
    (r.positionOrInsert name make).2.name? i = some other := by
  by_cases hmem : name ∈ r.names
  · rwa [positionOrInsert_of_mem hmem]
  · rw [name?, names_getElem?] at h ⊢
    obtain ⟨e, he, rfl⟩ := Option.map_eq_some_iff.1 h
    rw [(positionOrInsert_of_notMem hmem make).2, List.getElem?_append_left (lt_size he), he]
    rfl

theorem names_withValues {ys : List β} (h : ys.length = r.size) :
    (r.withValues ys).names = r.names := by
  change (r.names.zip ys).map Prod.fst = r.names
  rw [List.map_fst_zip]
  simp [names_length, h]

theorem values_withValues {ys : List β} (h : ys.length = r.size) :
    (r.withValues ys).values = ys := by
  change (r.names.zip ys).map Prod.snd = ys
  rw [List.map_snd_zip]
  simp [names_length, h]

end Registry

end BehaviorEngine
