import BehaviorEngine.Host.Registration

/-!
Registrations keep what is registered sound: the position of an enumeration is given out only if
the enumeration is there, and no enumeration ever goes away. This holds of refused registrations
too, so whatever a host registers makes an environment.
-/

namespace BehaviorEngine

/-! ### Values of registries -/

namespace Registry

variable {α : Type} {r s : Registry α} {name : String} {i : Nat} {x y : α}

theorem mem_values_of_append (h : r.append name x = .ok s) (hy : y ∈ s.values) :
    y ∈ r.values ∨ y = x := by
  rw [values, entries_of_append h] at hy
  simpa [values] using hy

theorem mem_values_of_modifyAt (hy : y ∈ (r.modifyAt i fun _ => x).values) :
    y ∈ r.values ∨ y = x := by
  obtain ⟨n, hn⟩ := List.mem_iff_getElem?.1 hy
  rw [values, modifyAt, List.getElem?_map, List.getElem?_modify] at hn
  cases hr : r.entries[n]? with
  | none => simp [hr] at hn
  | some e =>
    by_cases h : i = n
    · exact .inr (by simpa [hr, h] using hn.symm)
    · have hy : e.2 = y := by simpa [hr, h] using hn
      exact .inl (hy ▸ List.mem_map_of_mem (List.mem_of_getElem? hr))

theorem mem_values_of_find? (h : r.find? name = some (i, x)) : x ∈ r.values :=
  List.mem_map_of_mem (f := Prod.snd) (List.mem_of_getElem? (find?_eq_some_iff.1 h))

theorem size_modifyAt (r : Registry α) (i : Nat) (f : α → α) : (r.modifyAt i f).size = r.size := by
  rw [← names_length, names_modifyAt, names_length]

/-- The position of a name that is looked up is taken, and no entry goes away. -/
theorem positionOrInsert_lt (r : Registry α) (name : String) (make : Unit → α) :
    (r.positionOrInsert name make).1 < (r.positionOrInsert name make).2.size ∧
      r.size ≤ (r.positionOrInsert name make).2.size := by
  by_cases h : name ∈ r.names
  · obtain ⟨i, hi⟩ := List.mem_iff_getElem?.1 h
    have hlt : i < r.size := names_length ▸ (List.getElem?_eq_some_iff.1 hi).1
    rw [positionOrInsert, position?_eq_some_iff.2 hi]
    exact ⟨hlt, Nat.le_refl _⟩
  · obtain ⟨hposition, hentries⟩ := positionOrInsert_of_notMem h make
    have hsize : (r.positionOrInsert name make).2.size = r.size + 1 := by
      rw [size, hentries, List.length_append, size]
      rfl
    rw [hposition, hsize]
    exact ⟨Nat.lt_succ_self _, Nat.le_succ _⟩

end Registry

variable {σ slot : Type}

/-! ### More enumerations -/

theorem Symbols.Knows.mono {s s' : Symbols σ} (h : s.enumerations.size ≤ s'.enumerations.size)
    {d : Domain} {t : d.Typing} (ht : s.Knows d t) : s'.Knows d t := by
  cases d with
  | decimal | boolean => trivial
  | enumerated => exact Nat.lt_of_lt_of_le ht h

theorem Parameters.KnownTo.mono {s s' : Symbols σ} {p : Parameters slot} (hp : p.KnownTo s)
    (h : s.enumerations.size ≤ s'.enumerations.size) : p.KnownTo s' :=
  fun d x hx => (hp d x hx).mono h

theorem Parameters.none_knownTo (s : Symbols σ) : (none : Parameters slot).KnownTo s := by
  intro d
  cases d <;> exact nofun

theorem Parameters.KnownTo.register {s : Symbols σ} {p p' : Parameters String} {owner : String}
    {d : Domain} {name : String} {x : Parameter String d} (hp : p.KnownTo s)
    (hx : s.Knows d x.typing) (h : p.register owner d name x = .ok p') : p'.KnownTo s := by
  unfold Parameters.register declare at h
  cases hr : (p.get d).append name x with
  | error e =>
    rw [hr] at h
    cases h
  | ok r =>
    rw [hr] at h
    cases h
    intro d' y hy
    by_cases hd : d' = d
    · subst hd
      rw [PerDomain.get_set] at hy
      rcases Registry.mem_values_of_append hr hy with hy | rfl
      · exact hp d' y hy
      · exact hx
    · rw [PerDomain.get_set_of_ne _ _ hd] at hy
      exact hp d' y hy

namespace Draft

variable {e : Draft σ} {d : Domain}

/-- Sound drafts stay sound with more enumerations. -/
theorem Sound.withEnumerations (h : e.Sound) {enumerations : Registry Enumeration}
    (hsize : e.symbols.enumerations.size ≤ enumerations.size) :
    ({ e with symbols := { e.symbols with enumerations } } : Draft σ).Sound where
  inputs d s hs := ⟨(h.inputs d s hs).1.mono hsize, (h.inputs d s hs).2.mono hsize⟩
  outputs d s hs := (h.outputs d s hs).mono hsize
  behaviors b hb := (h.behaviors b hb).mono hsize

/-- Sound drafts stay sound with other input symbols of a domain, if these are sound. -/
theorem Sound.withInputs (h : e.Sound) {inputs : Registry (InputSymbol σ d)}
    (hs : ∀ s ∈ inputs.values, s ∈ (e.symbols.inputs.get d).values ∨
      e.symbols.Knows d s.typing ∧ s.parameters.KnownTo e.symbols) :
    ({ e with symbols := { e.symbols with inputs := e.symbols.inputs.set d inputs } } :
      Draft σ).Sound where
  inputs d' s hmem := by
    by_cases hd : d' = d
    · subst hd
      rw [PerDomain.get_set] at hmem
      exact (hs s hmem).elim (h.inputs d' s) id
    · rw [PerDomain.get_set_of_ne _ _ hd] at hmem
      exact h.inputs d' s hmem
  outputs := h.outputs
  behaviors := h.behaviors

/-- Sound drafts stay sound with other output symbols of a domain, if these are sound. -/
theorem Sound.withOutputs (h : e.Sound) {outputs : Registry (OutputSymbol σ d)}
    (hs : ∀ s ∈ outputs.values, s ∈ (e.symbols.outputs.get d).values ∨
      e.symbols.Knows d s.typing) :
    ({ e with symbols := { e.symbols with outputs := e.symbols.outputs.set d outputs } } :
      Draft σ).Sound where
  inputs := h.inputs
  outputs d' s hmem := by
    by_cases hd : d' = d
    · subst hd
      rw [PerDomain.get_set] at hmem
      exact (hs s hmem).elim (h.outputs d' s) id
    · rw [PerDomain.get_set_of_ne _ _ hd] at hmem
      exact h.outputs d' s hmem
  behaviors := h.behaviors

/-- Sound drafts stay sound with other behaviors, if these are sound. -/
theorem Sound.withBehaviors (h : e.Sound) {behaviors : Registry (BasicBehavior σ)}
    (hb : ∀ b ∈ behaviors.values, b ∈ e.behaviors.values ∨ b.parameters.KnownTo e.symbols) :
    ({ e with behaviors } : Draft σ).Sound where
  inputs := h.inputs
  outputs := h.outputs
  behaviors b hmem := (hb b hmem).elim (h.behaviors b) id

end Draft

/-! ### Registrations -/

namespace Registering

variable {α β : Type} {P : Draft σ → Prop}

/-- **A registration keeps drafts sound**, from all those of which `P` holds, whether it is refused
or not; `Q` tells what holds besides if it is not. -/
def Keeps (P : Draft σ → Prop) (r : Registering σ α) (Q : α → Draft σ → Prop) : Prop :=
  ∀ e, e.Sound → P e → (r.runOn e).2.Sound ∧ ∀ a, (r.runOn e).1 = .ok a → Q a (r.runOn e).2

namespace Keeps

variable {Q : α → Draft σ → Prop} {R : β → Draft σ → Prop} {r : Registering σ α}

theorem pure {a : α} (h : ∀ e, P e → Q a e) : Keeps P (Pure.pure a : Registering σ α) Q :=
  fun e he hp => ⟨he, fun _ ha => Except.ok.inj ha ▸ h e hp⟩

theorem refuse (error : RegistrationError) : Keeps P (Registering.refuse error) Q :=
  fun _ he _ => ⟨he, nofun⟩

theorem bind {f : α → Registering σ β} (h : Keeps P r Q) (hf : ∀ a, Keeps (Q a) (f a) R) :
    Keeps P (r >>= f) R := by
  intro e he hp
  obtain ⟨hsound, hok⟩ := h e he hp
  have hbind : (r >>= f).runOn e = ExceptT.bindCont f (r.runOn e).1 (r.runOn e).2 := rfl
  rw [hbind]
  cases ha : (r.runOn e).1 with
  | ok a => exact hf a _ hsound (hok a ha)
  | error error => exact ⟨hsound, nofun⟩

/-- A registration that looks at what is registered. -/
theorem get_bind {f : Draft σ → Registering σ β} (h : ∀ e, P e → Keeps (· = e) (f e) R) :
    Keeps P (MonadState.get >>= f) R :=
  fun e he hp => h e hp e he rfl

theorem set {e' : Draft σ} {Q : PUnit → Draft σ → Prop} (h : ∀ e, e.Sound → P e → e'.Sound)
    (hq : Q ⟨⟩ e') : Keeps P (MonadStateOf.set e' : Registering σ PUnit) Q :=
  fun e he hp => ⟨h e he hp, fun _ _ => hq⟩

theorem modify {f : Draft σ → Draft σ} (h : ∀ e, e.Sound → P e → (f e).Sound) :
    Keeps P (modifyGet fun e => ((), f e) : Registering σ PUnit) fun _ _ => True :=
  fun e he hp => ⟨h e he hp, fun _ _ => trivial⟩

/-- A check in front of a registration. -/
theorem check {p : Prop} [Decidable p] {error : RegistrationError} {f : PUnit → Registering σ β}
    (h : Keeps P (f ⟨⟩) R) :
    Keeps P (if p then Registering.refuse error >>= f else f ⟨⟩) R := by
  by_cases hp : p
  · rw [if_pos hp]
    exact (refuse (Q := fun _ _ => False) error).bind fun _ _ _ hfalse => hfalse.elim
  · rw [if_neg hp]
    exact h

end Keeps

/-- A registration of which nothing is told but that it keeps drafts sound. -/
abbrev KeepsSound (r : Registering σ α) : Prop := Keeps (fun _ => True) r fun _ _ => True

/-- A registration for each member of a list. -/
theorem forM_keeps {f : α → Registering σ Unit} (h : ∀ a, KeepsSound (f a)) (as : List α) :
    KeepsSound (as.forM f) := by
  induction as with
  | nil => exact .pure fun _ _ => trivial
  | cons a as ih => exact (h a).bind fun _ => ih

theorem append_keeps {e : Draft σ} (kind : NameKind) (r : Registry β) (name : String) (x : β) :
    Keeps (· = e) (append kind r name x : Registering σ (Registry β))
      (fun s e' => r.append name x = .ok s ∧ e' = e) := by
  unfold append
  cases h : r.append name x with
  | ok s => exact .pure fun e' he' => ⟨rfl, he'⟩
  | error => exact .refuse _

/-! ### Enumerations -/

/-- **The position that is given out is that of an enumeration.** -/
theorem enumeration_keeps (name : String) :
    Keeps P (enumeration name) (fun id e => e.symbols.Knows .enumerated id) := by
  refine .get_bind fun e _ => ?_
  obtain ⟨hlt, hle⟩ := e.symbols.enumerations.positionOrInsert_lt name fun _ => Registry.empty
  refine Keeps.bind (Q := fun _ e' => e'.symbols.Knows .enumerated _)
    (.set (fun e' he' h => ?_) hlt) fun _ => .pure fun _ h => h
  exact Draft.Sound.withEnumerations (h ▸ he') hle

theorem typing_keeps (enumerationName : String) (d : Domain) :
    Keeps P (typing enumerationName d) (fun t e => e.symbols.Knows d t) := by
  cases d with
  | decimal | boolean => exact .pure fun _ _ => trivial
  | enumerated => exact enumeration_keeps enumerationName

theorem element_keeps (enumerationName name : String) (value : Int32) :
    KeepsSound (element enumerationName name value : Registering σ Unit) := by
  refine (enumeration_keeps enumerationName).bind fun id => .get_bind fun e _ => ?_
  cases e.symbols.enumerations.at? id with
  | none => exact .refuse _
  | some old =>
    dsimp only
    cases old.append name value with
    | error => exact .refuse _
    | ok elements =>
      refine .set (fun e' he' h => ?_) trivial
      refine Draft.Sound.withEnumerations (h ▸ he') ?_
      exact Nat.le_of_eq (Registry.size_modifyAt _ _ _).symm

/-! ### Symbols -/

theorem input_keeps (d : Domain) (name enumerationName : String) (binding : InputBinding σ d) :
    KeepsSound (input d name enumerationName binding) := by
  refine .get_bind fun e _ => .check ?_
  refine (typing_keeps enumerationName d).bind fun t => .get_bind fun e ht =>
    (append_keeps _ _ _ _).bind fun inputs => .set (fun e' he' h => ?_) trivial
  obtain ⟨happend, rfl⟩ := h
  refine he'.withInputs fun s hs => (Registry.mem_values_of_append happend hs).imp id ?_
  rintro rfl
  exact ⟨ht, Parameters.none_knownTo _⟩

theorem output_keeps (d : Domain) (name enumerationName : String) (binding : OutputBinding σ d) :
    KeepsSound (output d name enumerationName binding) := by
  refine .get_bind fun e _ => .check ?_
  refine (typing_keeps enumerationName d).bind fun t => .get_bind fun e ht =>
    (append_keeps _ _ _ _).bind fun outputs => .set (fun e' he' h => ?_) trivial
  obtain ⟨happend, rfl⟩ := h
  refine he'.withOutputs fun s hs => (Registry.mem_values_of_append happend hs).imp id ?_
  rintro rfl
  exact ht

theorem findInput_keeps (d : Domain) (symbol : String) :
    Keeps P (findInput d symbol)
      (fun found e => P e ∧ found.2 ∈ (e.symbols.inputs.get d).values) := by
  refine .get_bind fun e hp => ?_
  cases h : (e.symbols.inputs.get d).find? symbol with
  | none => exact .refuse _
  | some found => exact .pure fun e' he' => he' ▸ ⟨hp, Registry.mem_values_of_find? h⟩

/-- Sound drafts stay sound with another input symbol at a position, if this one is sound. -/
theorem setInput_keeps (d : Domain) (i : Nat) {s : InputSymbol σ d}
    (h : ∀ e, P e → e.symbols.Knows d s.typing ∧ s.parameters.KnownTo e.symbols) :
    Keeps P (setInput d i s) fun _ _ => True := by
  refine .modify fun e he hp => he.withInputs fun s' hs' => ?_
  refine (Registry.mem_values_of_modifyAt hs').imp id ?_
  rintro rfl
  exact h e hp

theorem inputParameter_keeps (d : Domain) (symbol : String) (p : Domain)
    (name enumerationName slot : String) :
    KeepsSound (inputParameter d symbol p name enumerationName slot : Registering σ Unit) := by
  refine (findInput_keeps d symbol).bind fun _ => (typing_keeps enumerationName p).bind fun t =>
    (findInput_keeps d symbol).bind fun ⟨i, s⟩ => ?_
  dsimp only
  cases hregister : s.parameters.register symbol p name ⟨t, slot⟩ with
  | error => exact .refuse _
  | ok parameters =>
    intro e he hp
    obtain ⟨ht, hs⟩ := hp
    obtain ⟨htyping, hparameters⟩ := he.inputs d s hs
    exact setInput_keeps (P := (· = e)) d i
      (fun _ he' => he' ▸ ⟨htyping, hparameters.register ht hregister⟩) e he rfl

theorem inputChanged_keeps (d : Domain) (symbol : String) (call : World σ → World σ) :
    KeepsSound (inputChanged d symbol call) := by
  refine (findInput_keeps d symbol).bind fun ⟨i, s⟩ e he hp => ?_
  exact setInput_keeps (P := (· = e)) d i (fun _ he' => he' ▸ he.inputs d s hp.2) e he rfl

/-! ### Basic behaviors -/

theorem behavior_keeps (name : String) (run parametersChanged : World σ → World σ) :
    KeepsSound (behavior name run parametersChanged) := by
  refine .get_bind fun e _ => (append_keeps _ _ _ _).bind fun behaviors =>
    .set (fun e' he' h => ?_) trivial
  obtain ⟨happend, rfl⟩ := h
  refine he'.withBehaviors fun b hb => (Registry.mem_values_of_append happend hb).imp id ?_
  rintro rfl
  exact Parameters.none_knownTo _

theorem findBehavior_keeps (name : String) :
    Keeps P (findBehavior name) (fun found e => P e ∧ found.2 ∈ e.behaviors.values) := by
  refine .get_bind fun e hp => ?_
  cases h : e.behaviors.find? name with
  | none => exact .refuse _
  | some found => exact .pure fun e' he' => he' ▸ ⟨hp, Registry.mem_values_of_find? h⟩

theorem behaviorParameter_keeps (owner : String) (p : Domain)
    (name enumerationName slot : String) :
    KeepsSound (behaviorParameter owner p name enumerationName slot : Registering σ Unit) := by
  refine (findBehavior_keeps owner).bind fun _ => (typing_keeps enumerationName p).bind fun t =>
    (findBehavior_keeps owner).bind fun ⟨i, b⟩ => ?_
  dsimp only
  cases hregister : b.parameters.register owner p name ⟨t, slot⟩ with
  | error => exact .refuse _
  | ok parameters =>
    refine .modify fun e he hp => he.withBehaviors fun b' hb' => ?_
    have hparameters := (he.behaviors b hp.2).register hp.1 hregister
    refine (Registry.mem_values_of_modifyAt hb').imp id ?_
    rintro rfl
    exact hparameters

/-! ### From one environment to another -/

/-- Carries out a registration on an environment. -/
def build (r : Registering σ α) (hr : r.KeepsSound) (e : Environment σ) :
    Except RegistrationError α × Environment σ :=
  let result := r.runOn e.toDraft
  (result.1, ⟨result.2, (hr e.toDraft e.sound trivial).1⟩)

theorem runOn_of_build {r : Registering σ α} {hr : r.KeepsSound} {e e' : Environment σ}
    {x : Except RegistrationError α} (h : r.build hr e = (x, e')) :
    r.runOn e.toDraft = (x, e'.toDraft) := by
  cases h
  rfl

end Registering

end BehaviorEngine
