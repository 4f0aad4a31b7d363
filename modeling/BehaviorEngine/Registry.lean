/-!
Registries: collections addressed by name and by position, in the order of insertion. A name is
present at most once, which is part of the type; a position never changes once it is given out.
-/

namespace BehaviorEngine

/-- Named entries in the order of insertion, no name twice. -/
structure Registry (α : Type) where
  entries : List (String × α)
  nodup : (entries.map Prod.fst).Nodup

/-- An insertion was refused because the name is present. -/
structure DuplicateName where
  name : String
  deriving DecidableEq, Repr

/-- The text that reports the refusal. -/
def DuplicateName.message (e : DuplicateName) : String := s!"`{e.name}` is already present"

namespace Registry

variable {α β : Type} {r s : Registry α} {name : String} {i : Nat} {x : α}

@[ext] theorem ext (h : r.entries = s.entries) : r = s := by
  cases r; cases s; cases h; rfl

/-! ### Looking up -/

/-- No entries. -/
def empty : Registry α := ⟨[], .nil⟩

instance : EmptyCollection (Registry α) := ⟨empty⟩
instance : Inhabited (Registry α) := ⟨empty⟩

/-- Number of entries. -/
def size (r : Registry α) : Nat := r.entries.length

def isEmpty (r : Registry α) : Bool := r.entries.isEmpty

/-- Names in the order of insertion. -/
def names (r : Registry α) : List String := r.entries.map Prod.fst

/-- Values in the order of insertion. -/
def values (r : Registry α) : List α := r.entries.map Prod.snd

/-- Position of a name. -/
def position? (r : Registry α) (name : String) : Option Nat := r.names.idxOf? name

/-- Whether a name is present. -/
def contains (r : Registry α) (name : String) : Bool := r.names.contains name

/-- Value at a position. -/
def at? (r : Registry α) (i : Nat) : Option α := r.values[i]?

/-- Name at a position. -/
def name? (r : Registry α) (i : Nat) : Option String := r.names[i]?

/-- Value of a name. -/
def get? (r : Registry α) (name : String) : Option α := (r.position? name).bind r.at?

/-- Position and value of a name. -/
def find? (r : Registry α) (name : String) : Option (Nat × α) := do
  let i ← r.position? name
  let x ← r.at? i
  pure (i, x)

theorem names_getElem? : r.names[i]? = (r.entries[i]?).map Prod.fst := by simp [names]

theorem at?_eq : r.at? i = (r.entries[i]?).map Prod.snd := by simp [at?, values]

theorem names_length : r.names.length = r.size := by simp [names, size]

theorem values_length : r.values.length = r.size := by simp [values, size]

theorem position?_eq_some_iff : r.position? name = some i ↔ r.names[i]? = some name := by
  unfold position?
  rw [List.idxOf?_eq_some_iff, List.getElem?_eq_some_iff]
  constructor
  · rintro ⟨h, e, -⟩
    exact ⟨h, e⟩
  · rintro ⟨h, e⟩
    refine ⟨h, e, fun j hj hji => ?_⟩
    exact List.pairwise_iff_getElem.1 r.nodup j i _ h hj (hji.trans e.symm)

theorem position?_eq_none_iff : r.position? name = none ↔ name ∉ r.names := by
  rw [List.mem_iff_getElem?, Option.eq_none_iff_forall_ne_some, not_exists]
  exact forall_congr' fun i => not_congr position?_eq_some_iff

theorem find?_eq_some_iff : r.find? name = some (i, x) ↔ r.entries[i]? = some (name, x) := by
  constructor
  · intro h
    simp only [find?, Option.bind_eq_bind, Option.bind_eq_some_iff, Option.pure_def,
      Option.some.injEq, Prod.mk.injEq] at h
    obtain ⟨j, hj, y, hy, rfl, rfl⟩ := h
    rw [position?_eq_some_iff, names_getElem?] at hj
    rw [at?_eq] at hy
    obtain ⟨e, he, rfl⟩ := Option.map_eq_some_iff.1 hy
    rw [he, Option.map_some, Option.some.injEq] at hj
    rw [he, ← hj]
  · intro h
    have hp : r.position? name = some i := by simp [position?_eq_some_iff, names_getElem?, h]
    have ha : r.at? i = some x := by simp [at?_eq, h]
    simp [find?, hp, ha]

theorem lt_size {e : String × α} (h : r.entries[i]? = some e) : i < r.size :=
  (List.getElem?_eq_some_iff.1 h).1

theorem at?_mem (h : r.at? i = some x) : x ∈ r.values := List.mem_of_getElem? h

/-! ### Inserting -/

theorem nodup_concat (h : name ∉ r.names) (x : α) :
    ((r.entries ++ [(name, x)]).map Prod.fst).Nodup := by
  rw [List.map_append]
  refine List.nodup_append.2 ⟨r.nodup, by simp, ?_⟩
  intro a ha b hb e
  simp at hb
  subst hb e
  exact h ha

/-- Adds an entry at the end, unless the name is present. -/
def append (r : Registry α) (name : String) (x : α) : Except DuplicateName (Registry α) :=
  if h : name ∈ r.names then .error ⟨name⟩
  else .ok ⟨r.entries ++ [(name, x)], nodup_concat h x⟩

/-- Position of a name, which is added with the value of `make` if it is not present. -/
def positionOrInsert (r : Registry α) (name : String) (make : Unit → α) : Nat × Registry α :=
  match r.position? name with
  | some i => (i, r)
  | none =>
    match r.append name (make ()) with
    | .ok s => (r.size, s)
    | .error _ => (r.size, r)

theorem append_of_notMem (h : name ∉ r.names) (x : α) :
    ∃ s, r.append name x = .ok s ∧ s.entries = r.entries ++ [(name, x)] := by
  refine ⟨⟨r.entries ++ [(name, x)], nodup_concat h x⟩, ?_, rfl⟩
  simp [append, h]

theorem append_of_mem (h : name ∈ r.names) (x : α) : r.append name x = .error ⟨name⟩ := by
  simp [append, h]

theorem entries_of_append (h : r.append name x = .ok s) : s.entries = r.entries ++ [(name, x)] := by
  by_cases hmem : name ∈ r.names
  · rw [append_of_mem hmem] at h
    cases h
  · obtain ⟨s', hs', he⟩ := append_of_notMem hmem x
    obtain rfl := Except.ok.inj (hs'.symm.trans h)
    exact he

/-- A name that is present is not inserted again. -/
theorem positionOrInsert_of_mem (h : name ∈ r.names) (make : Unit → α) :
    (r.positionOrInsert name make).2 = r := by
  obtain ⟨i, hi⟩ := List.mem_iff_getElem?.1 h
  rw [positionOrInsert, position?_eq_some_iff.2 hi]

/-- A new name is inserted at the end. -/
theorem positionOrInsert_of_notMem (h : name ∉ r.names) (make : Unit → α) :
    (r.positionOrInsert name make).1 = r.size ∧
      (r.positionOrInsert name make).2.entries = r.entries ++ [(name, make ())] := by
  obtain ⟨s, hs, he⟩ := append_of_notMem h (make ())
  rw [positionOrInsert, position?_eq_none_iff.2 h]
  simp only [hs]
  exact ⟨trivial, he⟩

/-! ### Changing values -/

/-- Applies a function to the value at a position, if there is one. -/
def modifyAt (r : Registry α) (i : Nat) (f : α → α) : Registry α :=
  ⟨r.entries.modify i fun e => (e.1, f e.2), by
    have : (r.entries.modify i fun e => (e.1, f e.2)).map Prod.fst = r.entries.map Prod.fst := by
      refine List.ext_getElem? fun n => ?_
      simp only [List.getElem?_map, List.getElem?_modify]
      cases r.entries[n]? with
      | none => rfl
      | some e => by_cases h : i = n <;> simp [h]
    rw [this]; exact r.nodup⟩

@[simp] theorem names_modifyAt (i : Nat) (f : α → α) : (r.modifyAt i f).names = r.names := by
  refine List.ext_getElem? fun n => ?_
  simp only [names_getElem?, modifyAt, List.getElem?_modify]
  cases r.entries[n]? with
  | none => rfl
  | some e => by_cases h : i = n <;> simp [h]

/-- Applies a function to the value of a name, if it is present. -/
def modify (r : Registry α) (name : String) (f : α → α) : Registry α :=
  match r.position? name with
  | some i => r.modifyAt i f
  | none => r

/-- Stores a value under a name, which is added if it is not present. -/
def put (r : Registry α) (name : String) (x : α) : Registry α :=
  match r.append name x with
  | .ok s => s
  | .error _ => r.modify name fun _ => x

/-- The same names with the images of the values. -/
def map (f : α → β) (r : Registry α) : Registry β :=
  ⟨r.entries.map fun e => (e.1, f e.2), by
    rw [List.map_map]
    exact r.nodup⟩

theorem map_fst_zip_sublist : (ns : List String) → (xs : List β) →
    ((ns.zip xs).map Prod.fst).Sublist ns
  | [], _ => by simp
  | _ :: _, [] => by simp
  | n :: ns, x :: xs => by simpa using map_fst_zip_sublist ns xs

/-- The same names with new values, in the same order. -/
def withValues (r : Registry α) (xs : List β) : Registry β :=
  ⟨r.names.zip xs, r.nodup.sublist (map_fst_zip_sublist r.names xs)⟩

end Registry

end BehaviorEngine
