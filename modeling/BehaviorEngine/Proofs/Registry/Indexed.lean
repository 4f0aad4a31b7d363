import BehaviorEngine.Proofs.Registry.Operations
import BehaviorEngine.Text.Quoted

/-!
Registries with an index. A table gives the positions of names, so that no lookup goes through the
entries; it is kept next to them by every operation that adds an entry. Under any sequence of
operations such a registry answers and holds what the list of entries alone does, and what the table
tells is what a scan of the entries finds.
-/

namespace BehaviorEngine

open Registry (Operation Reply Alike runWith runWith_alike)

/-- Named entries in the order of insertion, and a table of positions. -/
structure IndexedRegistry (α : Type) where
  entries : List (String × α)
  positions : Std.HashMap String Nat

namespace IndexedRegistry

variable {α : Type}

/-! ### Looking up -/

def empty : IndexedRegistry α := ⟨[], ∅⟩

def names (r : IndexedRegistry α) : List String := r.entries.map Prod.fst

def values (r : IndexedRegistry α) : List α := r.entries.map Prod.snd

/-- Position of a name. -/
def position? (r : IndexedRegistry α) (name : String) : Option Nat := r.positions[name]?

/-- Whether a name is present. -/
def contains (r : IndexedRegistry α) (name : String) : Bool := r.positions.contains name

/-- Value at a position. -/
def at? (r : IndexedRegistry α) (i : Nat) : Option α := (r.entries[i]?).map Prod.snd

/-- Value of a name, if it is present. There is no answer if the table tells a position that is not
there. -/
def get? (r : IndexedRegistry α) (name : String) : Option (Option α) :=
  match r.position? name with
  | none => some none
  | some i => (r.at? i).map some

/-- A registry as text: its names in quotes, each with its value. -/
def listing (valueText : α → String) (r : IndexedRegistry α) : String :=
  let entry := fun (e : String × α) => Text.quoted e.1 ++ ": " ++ valueText e.2
  "\x7b" ++ String.intercalate ", " (r.entries.map entry) ++ "\x7d"

/-! ### Inserting -/

/-- Adds an entry at the end, and its position to the table. -/
def push (r : IndexedRegistry α) (name : String) (x : α) : IndexedRegistry α :=
  ⟨r.entries ++ [(name, x)], r.positions.insert name r.entries.length⟩

/-- Adds an entry at the end, unless the name is present. -/
def append (r : IndexedRegistry α) (name : String) (x : α) :
    Except DuplicateName Nat × IndexedRegistry α :=
  if r.contains name then (.error ⟨name⟩, r) else (.ok r.entries.length, r.push name x)

/-- Position of a name, which is added with what `make` gives if it is not present. What else
`make` does is an effect of `m`. -/
def positionOrInsert {m : Type → Type} [Monad m] (r : IndexedRegistry α) (name : String)
    (make : m α) : m (Nat × IndexedRegistry α) :=
  match r.position? name with
  | some i => pure (i, r)
  | none => do
    let x ← make
    return (r.entries.length, r.push name x)

/-! ### Changing values -/

/-- Applies a function to the value at a position, if there is one. -/
def modifyAt (r : IndexedRegistry α) (i : Nat) (f : α → α) : IndexedRegistry α :=
  ⟨r.entries.modify i fun e => (e.1, f e.2), r.positions⟩

/-- Applies a function to the value at a position that has to be there. -/
def modifyIndex (r : IndexedRegistry α) (i : Nat) (f : α → α) : Option (IndexedRegistry α) :=
  if i < r.entries.length then some (r.modifyAt i f) else none

/-- Applies a function to the value of a name, if it is present. There is no answer if the table
tells a position that is not there. -/
def modify (r : IndexedRegistry α) (name : String) (f : α → α) :
    Option (Bool × IndexedRegistry α) :=
  match r.position? name with
  | none => some (false, r)
  | some i => (r.modifyIndex i f).map fun s => (true, s)

/-! ### Operations -/

/-- The answer of a registry to an operation, and what it makes of it. -/
def perform (r : IndexedRegistry α) : Operation α → Option (Reply × IndexedRegistry α)
  | .append name x =>
    let (result, s) := r.append name x
    some (.appended result, s)
  | .positionOrInsert name make =>
    let (i, s) := Id.run (r.positionOrInsert name (pure (make ())))
    some (.position i, s)
  | .modify name f => (r.modify name f).map fun p => (.changed p.1, p.2)
  | .modifyAt i f => some (.changed (i < r.entries.length), r.modifyAt i f)
  | .index i f => (r.modifyIndex i f).map fun s => (.changed true, s)

/-- A registry after operations. -/
def run : IndexedRegistry α → List (Operation α) → Option (List Reply × IndexedRegistry α) :=
  runWith perform

/-! ### The table and the entries -/

/-- A registry with an index has the entries of one without, and its table tells where they are. -/
structure Represents (r : IndexedRegistry α) (s : Registry α) : Prop where
  entries : r.entries = s.entries
  positions : ∀ name, r.position? name = s.position? name

namespace Represents

variable {r : IndexedRegistry α} {s t : Registry α} {name : String} {x : α}

theorem empty : Represents (.empty : IndexedRegistry α) .empty where
  entries := rfl
  positions name := by simp [IndexedRegistry.position?, IndexedRegistry.empty]; rfl

theorem names (h : r.Represents s) : r.names = s.names := by
  rw [IndexedRegistry.names, h.entries, Registry.names]

theorem values (h : r.Represents s) : r.values = s.values := by
  rw [IndexedRegistry.values, h.entries, Registry.values]

theorem length (h : r.Represents s) : r.entries.length = s.size := by rw [h.entries, Registry.size]

theorem contains (h : r.Represents s) (name : String) : r.contains name = s.contains name := by
  rw [IndexedRegistry.contains, Std.HashMap.contains_eq_isSome_getElem?,
    ← Registry.position?_isSome, ← h.positions]
  rfl

theorem get? (h : r.Represents s) (name : String) : r.get? name = some (s.get? name) := by
  rw [IndexedRegistry.get?, h.positions, Registry.get?]
  cases hposition : s.position? name with
  | none => rfl
  | some i =>
    obtain ⟨x, hx⟩ := Registry.exists_entry (Registry.position?_eq_some_iff.1 hposition)
    simp [IndexedRegistry.at?, Registry.at?_eq, h.entries, hx]

/-- The table tells the position of an entry that is added to both. -/
theorem push (h : r.Represents s) (hentries : t.entries = s.entries ++ [(name, x)]) :
    (r.push name x).Represents t where
  entries := by rw [IndexedRegistry.push, hentries, h.entries]
  positions n := by
    rw [Registry.position?_of_entries_concat hentries, ← h.positions, ← h.length]
    simp [IndexedRegistry.position?, IndexedRegistry.push, Std.HashMap.getElem?_insert]

theorem modifyAt (h : r.Represents s) (i : Nat) (f : α → α) :
    (r.modifyAt i f).Represents (s.modifyAt i f) where
  entries := by rw [IndexedRegistry.modifyAt, h.entries]; rfl
  positions name := by
    rw [Registry.position?, Registry.names_modifyAt, ← Registry.position?, ← h.positions]
    rfl

theorem modifyIndex (h : r.Represents s) {i : Nat} (hi : i < s.size) (f : α → α) :
    r.modifyIndex i f = some (r.modifyAt i f) := by
  rw [IndexedRegistry.modifyIndex, h.length, if_pos hi]

theorem append_of_mem (h : r.Represents s) (hmem : name ∈ s.names) (x : α) :
    r.append name x = (.error ⟨name⟩, r) := by
  rw [IndexedRegistry.append, h.contains, Registry.contains, List.contains_iff_mem.2 hmem]
  rfl

theorem append_of_notMem (h : r.Represents s) (hmem : name ∉ s.names) (x : α) :
    r.append name x = (.ok s.size, r.push name x) := by
  rw [IndexedRegistry.append, h.contains, Registry.contains, h.length,
    Bool.eq_false_iff.2 (mt List.contains_iff_mem.1 hmem)]
  rfl

/-- **Both answer an operation alike, and go on alike.** -/
theorem perform (h : r.Represents s) (o : Operation α) :
    Alike Represents (r.perform o) (s.perform o) := by
  cases o with
  | append name x =>
    by_cases hmem : name ∈ s.names
    · simp only [IndexedRegistry.perform, h.append_of_mem hmem, Registry.perform,
        Registry.append_of_mem hmem]
      exact .goOn _ h
    · obtain ⟨t, ht, hentries⟩ := Registry.append_of_notMem hmem x
      simp only [IndexedRegistry.perform, h.append_of_notMem hmem, Registry.perform, ht]
      exact .goOn _ (h.push hentries)
  | positionOrInsert name make =>
    simp only [IndexedRegistry.perform, IndexedRegistry.positionOrInsert, h.positions,
      Registry.perform]
    cases hposition : s.position? name with
    | some i =>
      simp only [Registry.positionOrInsert, hposition]
      exact .goOn _ h
    | none =>
      have hmem := Registry.position?_eq_none_iff.1 hposition
      obtain ⟨hlast, hentries⟩ := Registry.positionOrInsert_of_notMem hmem make
      rw [hlast, h.length]
      exact .goOn _ (h.push hentries)
  | modify name f =>
    simp only [IndexedRegistry.perform, IndexedRegistry.modify, h.positions, Registry.perform,
      Registry.modify, ← Registry.position?_isSome]
    cases hposition : s.position? name with
    | none => exact .goOn _ h
    | some i =>
      obtain ⟨x, hx⟩ := Registry.exists_entry (Registry.position?_eq_some_iff.1 hposition)
      simp only [h.modifyIndex (Registry.lt_size hx), Option.map_some]
      exact .goOn _ (h.modifyAt i f)
  | modifyAt i f =>
    simp only [IndexedRegistry.perform, Registry.perform, h.length]
    exact .goOn _ (h.modifyAt i f)
  | index i f =>
    simp only [IndexedRegistry.perform, IndexedRegistry.modifyIndex, Registry.perform, h.length]
    split
    · exact .goOn _ (h.modifyAt i f)
    · exact .stop

/-- **Both answer all operations alike**, or stop at the same one. -/
theorem run (h : r.Represents s) (os : List (Operation α)) :
    Alike Represents (r.run os) (s.run os) :=
  runWith_alike Represents.perform h os

theorem nodup (h : r.Represents s) : r.names.Nodup := h.names ▸ s.nodup

/-- What the table tells is what a scan of the entries finds. -/
theorem scans (h : r.Represents s) (name : String) :
    r.position? name = r.entries.findIdx? (·.1 == name) ∧
    r.contains name = r.entries.any (·.1 == name) ∧
    r.get? name = some ((r.entries.find? (·.1 == name)).map Prod.snd) := by
  rw [h.positions, h.contains, h.get?, h.entries]
  exact ⟨s.position?_eq_findIdx? name, s.contains_eq_any name,
    congrArg some (s.get?_eq_find? name)⟩

/-- An insertion is refused for a name that is present, and changes nothing then. -/
theorem append_eq_error (h : r.Represents s) {e : DuplicateName}
    (he : (r.append name x).1 = .error e) :
    name ∈ r.names ∧ e = ⟨name⟩ ∧ (r.append name x).2 = r := by
  by_cases hmem : name ∈ s.names
  · rw [h.append_of_mem hmem] at he ⊢
    exact ⟨h.names ▸ hmem, (Except.error.inj he).symm, rfl⟩
  · rw [h.append_of_notMem hmem] at he
    cases he

/-- A name that is present is not inserted, and no value is made for it. -/
theorem positionOrInsert_of_mem (h : r.Represents s) (hmem : name ∈ r.names) :
    ∃ i, r.position? name = some i ∧ ∀ (m : Type → Type) [Monad m] (make : m α),
      r.positionOrInsert name make = pure (i, r) := by
  rw [h.names] at hmem
  obtain ⟨i, hi⟩ := List.mem_iff_getElem?.1 hmem
  have hposition : r.position? name = some i :=
    (h.positions name).trans (Registry.position?_eq_some_iff.2 hi)
  refine ⟨i, hposition, fun m _ make => ?_⟩
  rw [IndexedRegistry.positionOrInsert, hposition]

/-- A position is kept by all operations. -/
theorem position?_run (h : r.Represents s) {os : List (Operation α)} {answers : List Reply}
    {r' : IndexedRegistry α} (hrun : r.run os = some (answers, r')) {i : Nat}
    (hi : r.position? name = some i) : r'.position? name = some i := by
  have halike := h.run os
  rw [hrun] at halike
  obtain ⟨s', hs', h'⟩ := halike.exists_of_some
  rw [h.positions, Registry.position?_eq_some_iff] at hi
  rw [h'.positions, Registry.position?_eq_some_iff]
  obtain ⟨rest, hrest⟩ := Registry.names_prefix_run hs'
  rw [← hrest, List.getElem?_append_left (List.getElem?_eq_some_iff.1 hi).1, hi]

end Represents

/-! ### All operations -/

/-- **A registry with an index is a list of entries without duplicates.** Under any operations on an
empty one it gives the answers, and holds the entries, that the list alone does; it stops only
where a position has to be there that no name has got.

Names differ from one another, and what is looked up is what a scan of the entries finds. Positions
stay as they are. Names stand in the order in which each was inserted first, with the values that
the operations have made of the first ones, and they are listed so. An insertion that is refused
changes nothing, nor does one of a name that is present, and the value for that is not made. -/
theorem run_refines_entries (os : List (Operation α)) :
    ((empty : IndexedRegistry α).run os).map (fun p => (p.1, p.2.entries)) =
      ((Registry.empty : Registry α).run os).map (fun p => (p.1, p.2.entries)) ∧
    ((empty : IndexedRegistry α).run os = none ↔ ∃ first i f rest,
      os = first ++ .index i f :: rest ∧
        (first.filterMap Operation.name?).eraseDups.length ≤ i) ∧
    ∀ answers r, (empty : IndexedRegistry α).run os = some (answers, r) →
      r.names.Nodup ∧
      (∀ name, r.position? name = r.entries.findIdx? (·.1 == name) ∧
        r.contains name = r.entries.any (·.1 == name) ∧
        r.get? name = some ((r.entries.find? (·.1 == name)).map Prod.snd)) ∧
      (∀ more answers' s, r.run more = some (answers', s) →
        ∀ name i, r.position? name = some i → s.position? name = some i) ∧
      r.names = (os.filterMap Operation.name?).eraseDups ∧
      (∀ i name, r.names[i]? = some name →
        r.values[i]? = os.foldl (fun v o => o.update name i v) none) ∧
      r.entries = r.names.zip r.values ∧
      (∀ valueText, r.listing valueText = "\x7b" ++ String.intercalate ", "
        ((r.names.zip r.values).map fun e => Text.quoted e.1 ++ ": " ++ valueText e.2) ++ "\x7d") ∧
      (∀ name x e, (r.append name x).1 = .error e →
        name ∈ r.names ∧ e = ⟨name⟩ ∧ (r.append name x).2 = r) ∧
      ∀ name ∈ r.names, ∃ i, r.position? name = some i ∧
        ∀ (m : Type → Type) [Monad m] (make : m α),
          r.positionOrInsert name make = pure (i, r) := by
  have halike : Alike Represents ((empty : IndexedRegistry α).run os) (Registry.empty.run os) :=
    Represents.empty.run os
  have hnone : (Registry.empty : Registry α).names = ([] : List String).eraseDups := rfl
  refine ⟨halike.map_eq fun a _ _ h => congrArg (a, ·) h.entries,
    halike.eq_none_iff.trans (Registry.run_eq_none_iff hnone), fun answers r hr => ?_⟩
  rw [hr] at halike
  obtain ⟨s, hs, h⟩ := halike.exists_of_some
  have hentries : r.entries = r.names.zip r.values := by
    rw [h.names, h.values, h.entries, Registry.entries_eq_zip]
  refine ⟨h.nodup, h.scans, fun more answers' s hmore name i => h.position?_run hmore,
    h.names ▸ Registry.names_run hnone hs, fun i name hi => ?_, hentries, fun valueText => ?_,
    fun name x e => h.append_eq_error, fun name => h.positionOrInsert_of_mem⟩
  · rw [h.names] at hi
    rw [h.values]
    exact Registry.at?_run hs (Registry.reserves_of_name? hi)
  · rw [listing, ← hentries]

/-- Two names, one of them inserted twice, a third one, and changes by name and by position. -/
def insertions : List (Operation Nat) :=
  [.append "zeta" 1, .append "alpha" 2, .append "zeta" 3, .positionOrInsert "mid" fun _ => 4,
    .positionOrInsert "zeta" fun _ => 5, .modify "alpha" (· + 40), .modify "none" (· + 1),
    .index 0 (· + 5), .modifyAt 7 (· + 1)]

theorem run_refines_entries_insertions :
    ∃ answers r, (empty : IndexedRegistry Nat).run insertions = some (answers, r) ∧
      r.entries = [("zeta", 6), ("alpha", 42), ("mid", 4)] ∧ r.position? "mid" = some 2 ∧
      r.get? "alpha" = some (some 42) ∧ r.contains "none" = false ∧
      r.append "zeta" 7 = (.error ⟨"zeta"⟩, r) := by
  obtain ⟨hentries, -, hrun⟩ := run_refines_entries insertions
  have hlist : (((Registry.empty : Registry Nat).run insertions).map fun p =>
      (p.1, p.2.entries)).map Prod.snd = some [("zeta", 6), ("alpha", 42), ("mid", 4)] := by decide
  rw [← hentries, Option.map_map, Option.map_eq_some_iff] at hlist
  obtain ⟨⟨answers, r⟩, hr, hlist : r.entries = _⟩ := hlist
  obtain ⟨-, hscan, -, -, -, -, -, hrefused, -⟩ := hrun answers r hr
  refine ⟨answers, r, hr, hlist, ?_, ?_, ?_, ?_⟩
  · rw [(hscan "mid").1, hlist]
    decide
  · rw [(hscan "alpha").2.2, hlist]
    decide
  · rw [(hscan "none").2.1, hlist]
    decide
  · have hmem : r.contains "zeta" = true := by
      rw [(hscan "zeta").2.1, hlist]
      decide
    have hresult : (r.append "zeta" 7).1 = .error ⟨"zeta"⟩ := by rw [append, hmem]; rfl
    exact Prod.ext hresult (hrefused _ _ _ hresult).2.2

end IndexedRegistry

end BehaviorEngine
