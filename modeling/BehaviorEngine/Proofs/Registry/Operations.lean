import BehaviorEngine.Proofs.Registry

/-!
Registries under any sequence of operations. An operation adds at most one name, behind all others,
so that positions stay as they are; the names of a registry are those that were inserted, in the
order in which each was inserted first, and each has the value that the operations since then have
made of its first one.
-/

namespace BehaviorEngine

namespace Registry

/-- What can change a registry. -/
inductive Operation (α : Type) where
  | append (name : String) (value : α)
  | positionOrInsert (name : String) (make : Unit → α)
  /-- Changes the value of a name, if it is present. -/
  | modify (name : String) (f : α → α)
  /-- Changes the value at a position, if there is one. -/
  | modifyAt (i : Nat) (f : α → α)
  /-- Changes the value at a position that has to be there. -/
  | index (i : Nat) (f : α → α)

/-- What an operation answers. -/
inductive Reply where
  | appended (result : Except DuplicateName Nat)
  | position (i : Nat)
  | changed (isPresent : Bool)
  deriving DecidableEq

variable {α S : Type}

/-- Operations one after another, with all answers, if none of them stops. -/
def runWith (perform : S → Operation α → Option (Reply × S)) :
    S → List (Operation α) → Option (List Reply × S)
  | r, [] => some ([], r)
  | r, o :: os => do
    let (answer, s) ← perform r o
    let (answers, t) ← runWith perform s os
    return (answer :: answers, t)

/-- Both stop, or give the same answer and go on in related states. -/
inductive Alike {A T : Type} (R : S → T → Prop) : Option (A × S) → Option (A × T) → Prop where
  | stop : Alike R none none
  | goOn (a : A) {s : S} {t : T} : R s t → Alike R (some (a, s)) (some (a, t))

/-- The answer of a registry to an operation, and what it makes of it. It stops at a position that
is not there. -/
def perform (r : Registry α) : Operation α → Option (Reply × Registry α)
  | .append name x =>
    match r.append name x with
    | .ok s => some (.appended (.ok r.size), s)
    | .error e => some (.appended (.error e), r)
  | .positionOrInsert name make =>
    let (i, s) := r.positionOrInsert name make
    some (.position i, s)
  | .modify name f => some (.changed (r.contains name), r.modify name f)
  | .modifyAt i f => some (.changed (i < r.size), r.modifyAt i f)
  | .index i f => if i < r.size then some (.changed true, r.modifyAt i f) else none

/-- A registry after operations. -/
def run : Registry α → List (Operation α) → Option (List Reply × Registry α) := runWith perform

namespace Operation

/-- The name that an operation inserts if it is new, and its first value. -/
def insertion? : Operation α → Option (String × α)
  | append name x => some (name, x)
  | positionOrInsert name make => some (name, make ())
  | _ => none

/-- The name that an operation inserts if it is new. -/
def name? (o : Operation α) : Option String := o.insertion?.map Prod.fst

/-- What an operation makes of the value of the name that has the given position, or gets it. -/
def update (name : String) (i : Nat) : Operation α → Option α → Option α
  | append other x, v => if other = name then v <|> some x else v
  | positionOrInsert other make, v => if other = name then v <|> some (make ()) else v
  | modify other f, v => if other = name then v.map f else v
  | modifyAt j f, v | index j f, v => if j = i then v.map f else v

end Operation

/-! ### Sequences of operations -/

section

variable {step : S → Operation α → Option (Reply × S)} {r s t : S} {o : Operation α}
  {os : List (Operation α)} {answers : List Reply}

theorem runWith_cons_eq_some_iff : runWith step r (o :: os) = some (answers, t) ↔
    ∃ a s as, step r o = some (a, s) ∧ runWith step s os = some (as, t) ∧ answers = a :: as := by
  simp only [runWith, Option.bind_eq_bind, Option.bind_eq_some_iff, Option.pure_def,
    Option.some.injEq, Prod.mk.injEq, Prod.exists]
  constructor
  · rintro ⟨a, s, hstep, as, t, hrun, rfl, rfl⟩
    exact ⟨a, s, as, hstep, hrun, rfl⟩
  · rintro ⟨a, s, as, hstep, hrun, rfl⟩
    exact ⟨a, s, hstep, as, t, hrun, rfl, rfl⟩

theorem runWith_cons_eq_none_iff : runWith step r (o :: os) = none ↔
    step r o = none ∨ ∃ a s, step r o = some (a, s) ∧ runWith step s os = none := by
  cases h : step r o with
  | none => simp [runWith, h]
  | some p => cases hos : runWith step p.2 os <;> simp [runWith, h, hos, Prod.ext_iff]

theorem Alike.bind {A B T : Type} {R : S → T → Prop} {p : Option (A × S)} {q : Option (A × T)}
    (h : Alike R p q) {f : A × S → Option (B × S)} {g : A × T → Option (B × T)}
    (hnext : ∀ a {s t}, R s t → Alike R (f (a, s)) (g (a, t))) :
    Alike R (p.bind f) (q.bind g) := by
  cases h with
  | stop => exact .stop
  | goOn a h => exact hnext a h

theorem Alike.map_eq {A B T : Type} {R : S → T → Prop} {p : Option (A × S)} {q : Option (A × T)}
    (h : Alike R p q) {f : A × S → B} {g : A × T → B}
    (hR : ∀ a {s t}, R s t → f (a, s) = g (a, t)) : p.map f = q.map g := by
  cases h with
  | stop => rfl
  | goOn a h => exact congrArg some (hR a h)

theorem Alike.eq_none_iff {A T : Type} {R : S → T → Prop} {p : Option (A × S)} {q : Option (A × T)}
    (h : Alike R p q) : p = none ↔ q = none := by
  cases h <;> simp

theorem Alike.exists_of_some {A T : Type} {R : S → T → Prop} {q : Option (A × T)} {a : A} {s : S}
    (h : Alike R (some (a, s)) q) : ∃ t, q = some (a, t) ∧ R s t := by
  cases h with
  | goOn _ h => exact ⟨_, rfl, h⟩

/-- States that answer each operation alike answer all of them alike. -/
theorem runWith_alike {T : Type} {R : S → T → Prop} {step' : T → Operation α → Option (Reply × T)}
    (hstep : ∀ {r s}, R r s → ∀ o, Alike R (step r o) (step' s o)) {s : T} (h : R r s)
    (os : List (Operation α)) : Alike R (runWith step r os) (runWith step' s os) := by
  induction os generalizing r s with
  | nil => exact .goOn [] h
  | cons o os ih =>
    refine (hstep h o).bind fun a _ _ hnext => ?_
    exact (ih hnext).bind fun as _ _ hrest => .goOn (a :: as) hrest

/-- What each operation preserves is preserved by all of them. -/
theorem runWith_invariant {P : S → Prop} (h : runWith step r os = some (answers, t))
    (hstep : ∀ {r s o a}, step r o = some (a, s) → P r → P s) (hr : P r) : P t := by
  induction os generalizing r answers with
  | nil =>
    obtain ⟨-, rfl⟩ := Prod.mk.inj (Option.some.inj h)
    exact hr
  | cons o os ih =>
    obtain ⟨a, s, as, ho, hos, -⟩ := runWith_cons_eq_some_iff.1 h
    exact ih hos (hstep ho hr)

end

/-! ### One operation -/

variable {r s t : Registry α} {o : Operation α} {os : List (Operation α)} {answer : Reply}
  {answers : List Reply} {name other : String} {i j : Nat} {x : α} {f : α → α}

theorem Operation.update_of_insertion? (h : o.insertion? = some (other, x)) (v : Option α) :
    o.update name i v = if other = name then v <|> some x else v := by
  cases o with
  | append _ _ | positionOrInsert _ _ =>
    obtain ⟨rfl, rfl⟩ := Prod.mk.inj (Option.some.inj h)
    rfl
  | modify _ _ | modifyAt _ _ | index _ _ => cases h

/-- **What an operation does.** It inserts a name at the end, if it is new, or changes a value. -/
theorem perform_cases (h : r.perform o = some (answer, s)) :
    (∃ name x, o.insertion? = some (name, x) ∧ (name ∈ r.names ∧ s = r ∨
      name ∉ r.names ∧ s.entries = r.entries ++ [(name, x)])) ∨
    (∃ name f, o = .modify name f ∧ s = r.modify name f) ∨
    (∃ i f, (o = .modifyAt i f ∨ o = .index i f) ∧ s = r.modifyAt i f) := by
  cases o with
  | append name x =>
    refine .inl ⟨name, x, rfl, ?_⟩
    by_cases hmem : name ∈ r.names
    · rw [perform, append_of_mem hmem] at h
      exact .inl ⟨hmem, (Prod.mk.inj (Option.some.inj h)).2.symm⟩
    · obtain ⟨s', hs', hentries⟩ := append_of_notMem hmem x
      rw [perform, hs'] at h
      obtain rfl := (Prod.mk.inj (Option.some.inj h)).2
      exact .inr ⟨hmem, hentries⟩
  | positionOrInsert name make =>
    refine .inl ⟨name, make (), rfl, ?_⟩
    obtain rfl := (Prod.mk.inj (Option.some.inj h)).2
    by_cases hmem : name ∈ r.names
    · exact .inl ⟨hmem, positionOrInsert_of_mem hmem make⟩
    · exact .inr ⟨hmem, (positionOrInsert_of_notMem hmem make).2⟩
  | modify name f =>
    exact .inr (.inl ⟨name, f, rfl, (Prod.mk.inj (Option.some.inj h)).2.symm⟩)
  | modifyAt i f =>
    exact .inr (.inr ⟨i, f, .inl rfl, (Prod.mk.inj (Option.some.inj h)).2.symm⟩)
  | index i f =>
    rw [perform] at h
    split at h
    · exact .inr (.inr ⟨i, f, .inr rfl, (Prod.mk.inj (Option.some.inj h)).2.symm⟩)
    · cases h

/-- An operation stops only at a position that is not there. -/
theorem perform_eq_none_iff : r.perform o = none ↔ ∃ i f, o = .index i f ∧ r.size ≤ i := by
  cases o with
  | append name x =>
    rw [perform]
    split <;> simp
  | index i f => simp [perform]
  | positionOrInsert _ _ | modify _ _ | modifyAt _ _ => simp [perform]

/-! ### Names -/

@[simp] theorem names_modify : (r.modify name f).names = r.names := by
  unfold modify
  split
  · exact names_modifyAt _ _
  · rfl

/-- An operation adds its name behind all others, if it is new. -/
theorem names_perform (h : r.perform o = some (answer, s)) :
    s.names = r.names ++ o.name?.toList.filter (· ∉ r.names) := by
  rcases perform_cases h with ⟨name, x, ho, ⟨hmem, rfl⟩ | ⟨hmem, hentries⟩⟩ | ⟨name, f, rfl, rfl⟩ |
    ⟨i, f, rfl | rfl, rfl⟩
  · simp [Operation.name?, ho, hmem]
  · simp [Operation.name?, ho, hmem, names_of_entries_concat hentries]
  all_goals simp [Operation.name?, Operation.insertion?]

/-- **Positions stay as they are.** -/
theorem names_prefix_run (h : r.run os = some (answers, t)) : r.names <+: t.names :=
  runWith_invariant (P := fun s => r.names <+: s.names) h
    (fun hstep hr => hr.trans (names_perform hstep ▸ List.prefix_append _ _)) List.prefix_rfl

/-- The names behind an operation, in the order of their first insertion. -/
theorem names_perform_eraseDups {before : List String} (hr : r.names = before.eraseDups)
    (h : r.perform o = some (answer, s)) : s.names = (before ++ o.name?.toList).eraseDups := by
  rw [names_perform h, hr, List.eraseDups_append]
  cases o.name? with
  | none => simp
  | some name =>
    by_cases hmem : name ∈ before <;> simp [List.removeAll, List.eraseDups_cons, hmem]

theorem filterMap_name?_cons (o : Operation α) (os : List (Operation α)) :
    (o :: os).filterMap Operation.name? = o.name?.toList ++ os.filterMap Operation.name? := by
  rw [List.filterMap_cons]
  cases o.name? <;> rfl

/-- **Names stand in the order of their first insertion.** -/
theorem names_run {before : List String} (hr : r.names = before.eraseDups)
    (h : r.run os = some (answers, t)) :
    t.names = (before ++ os.filterMap Operation.name?).eraseDups := by
  induction os generalizing r before answers with
  | nil =>
    obtain ⟨-, rfl⟩ := Prod.mk.inj (Option.some.inj h)
    rw [List.filterMap_nil, List.append_nil, hr]
  | cons o os ih =>
    obtain ⟨a, s, as, ho, hos, -⟩ := runWith_cons_eq_some_iff.1 h
    rw [ih (names_perform_eraseDups hr ho) hos, filterMap_name?_cons, List.append_assoc]

/-- **Operations stop** exactly at a position that has to be there, but that no name has got. -/
theorem run_eq_none_iff {before : List String} (hr : r.names = before.eraseDups) :
    r.run os = none ↔ ∃ first i f rest, os = first ++ .index i f :: rest ∧
      (before ++ first.filterMap Operation.name?).eraseDups.length ≤ i := by
  induction os generalizing r before with
  | nil => simp [run, runWith]
  | cons o os ih =>
    have hsize : r.size = before.eraseDups.length := by rw [← hr, names_length]
    rw [run, runWith_cons_eq_none_iff, perform_eq_none_iff]
    constructor
    · rintro (⟨i, f, rfl, hi⟩ | ⟨a, s, ho, hos⟩)
      · refine ⟨[], i, f, os, rfl, ?_⟩
        rwa [List.filterMap_nil, List.append_nil, ← hsize]
      · obtain ⟨first, i, f, rest, rfl, hi⟩ := (ih (names_perform_eraseDups hr ho)).1 hos
        refine ⟨o :: first, i, f, rest, rfl, ?_⟩
        rwa [filterMap_name?_cons, ← List.append_assoc]
    · rintro ⟨first, i, f, rest, heq, hi⟩
      cases first with
      | nil =>
        obtain ⟨rfl, rfl⟩ := List.cons.inj heq
        rw [List.filterMap_nil, List.append_nil, ← hsize] at hi
        exact .inl ⟨i, f, rfl, hi⟩
      | cons o' first =>
        obtain ⟨rfl, rfl⟩ := List.cons.inj heq
        -- Whether or not the first operation stops too, there is one that does.
        cases ho : r.perform o with
        | none => exact .inl (perform_eq_none_iff.1 ho)
        | some p =>
          refine .inr ⟨p.1, p.2, rfl, (ih (names_perform_eraseDups hr ho)).2
            ⟨first, i, f, rest, rfl, ?_⟩⟩
          rwa [filterMap_name?_cons, ← List.append_assoc] at hi

/-! ### Values -/

/-- A name stands at a position or nowhere, and no other name stands there. -/
def Reserves (r : Registry α) (name : String) (i : Nat) : Prop :=
  ∀ j other, r.names[j]? = some other → (j = i ↔ other = name)

theorem reserves_of_name? (h : r.names[i]? = some name) : r.Reserves name i := by
  intro j other hj
  constructor
  · rintro rfl
    exact Option.some.inj (hj.symm.trans h)
  · rintro rfl
    exact name?_inj hj h

theorem Reserves.of_prefix (h : s.Reserves name i) (hfront : r.names <+: s.names) :
    r.Reserves name i := by
  obtain ⟨rest, hrest⟩ := hfront
  intro j other hj
  refine h j other ?_
  rw [← hrest, List.getElem?_append_left (List.getElem?_eq_some_iff.1 hj).1, hj]

theorem at?_modifyAt : (r.modifyAt j f).at? i = if j = i then (r.at? i).map f else r.at? i := by
  rw [at?_eq, at?_eq, modifyAt, List.getElem?_modify]
  cases r.entries[i]? with
  | none => split <;> rfl
  | some e => split <;> simp_all

theorem Reserves.at?_of_mem (h : r.Reserves name i) (hmem : name ∈ r.names) :
    ∃ y, r.at? i = some y := by
  obtain ⟨j, hj⟩ := List.mem_iff_getElem?.1 hmem
  obtain rfl := (h j name hj).2 rfl
  obtain ⟨y, hy⟩ := exists_entry hj
  exact ⟨y, by rw [at?_eq, hy, Option.map_some]⟩

theorem Reserves.at?_of_notMem (h : r.Reserves name i) (hmem : name ∉ r.names) :
    r.at? i = none := by
  rw [at?_eq, Option.map_eq_none_iff]
  refine Option.eq_none_iff_forall_ne_some.2 fun e he => hmem ?_
  have hi : r.names[i]? = some e.1 := by rw [names_getElem?, he, Option.map_some]
  exact List.mem_of_getElem? ((h i e.1 hi).1 rfl ▸ hi)

/-- A new entry is what stands at the position of its name. -/
theorem at?_of_entries_concat (hs : s.Reserves name i)
    (hentries : s.entries = r.entries ++ [(other, x)]) :
    s.at? i = if other = name then r.at? i <|> some x else r.at? i := by
  -- The new entry stands at the former size.
  have hlast : r.size = i ↔ other = name := by
    refine hs r.size other ?_
    rw [names_getElem?, hentries, size]
    simp
  rw [at?_eq, at?_eq, hentries]
  split
  · next heq =>
    obtain rfl := hlast.2 heq
    simp [size]
  · next hne =>
    have hne : i - r.size ≠ 0 ∨ i < r.size := by
      have := mt hlast.1 hne
      omega
    rw [List.getElem?_append]
    split
    · rfl
    · next hle =>
      rw [List.getElem?_eq_none (Nat.not_lt.1 hle), List.getElem?_eq_none]
      rw [size] at hne
      simp only [List.length_singleton]
      omega

theorem at?_modify (h : r.Reserves name i) :
    (r.modify other f).at? i = if other = name then (r.at? i).map f else r.at? i := by
  cases hposition : r.position? other with
  | some j =>
    have hiff : j = i ↔ other = name := h j other (position?_eq_some_iff.1 hposition)
    simp only [modify, hposition, at?_modifyAt, hiff]
  | none =>
    simp only [modify, hposition]
    split
    · next heq =>
      rw [h.at?_of_notMem (heq ▸ position?_eq_none_iff.1 hposition)]
      rfl
    · rfl

/-- An operation makes of a value what it is meant to. -/
theorem at?_perform (h : r.perform o = some (answer, s)) (hs : s.Reserves name i) :
    s.at? i = o.update name i (r.at? i) := by
  have hr : r.Reserves name i := hs.of_prefix (names_perform h ▸ List.prefix_append _ _)
  rcases perform_cases h with
    ⟨other, x, ho, ⟨hmem, rfl⟩ | ⟨hmem, hentries⟩⟩ | ⟨other, f, rfl, rfl⟩ | ⟨j, f, rfl | rfl, rfl⟩
  · rw [Operation.update_of_insertion? ho]
    split
    · next heq =>
      -- The name is present, so it has a value already, and the new one is not taken.
      obtain ⟨y, hy⟩ := hr.at?_of_mem (heq ▸ hmem)
      rw [hy]
      rfl
    · rfl
  · rw [Operation.update_of_insertion? ho]
    exact at?_of_entries_concat hs hentries
  · exact at?_modify hr
  · exact at?_modifyAt
  · exact at?_modifyAt

/-- **The value of a name is what the operations have made of it.** -/
theorem at?_run (h : r.run os = some (answers, t)) (ht : t.Reserves name i) :
    t.at? i = os.foldl (fun v o => o.update name i v) (r.at? i) := by
  induction os generalizing r answers with
  | nil =>
    obtain ⟨-, rfl⟩ := Prod.mk.inj (Option.some.inj h)
    rfl
  | cons o os ih =>
    obtain ⟨a, s, as, ho, hos, -⟩ := runWith_cons_eq_some_iff.1 h
    rw [ih hos, List.foldl_cons, at?_perform ho (ht.of_prefix (names_prefix_run hos))]

end Registry

end BehaviorEngine
