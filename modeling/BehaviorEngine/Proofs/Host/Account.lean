import BehaviorEngine.Proofs.Host.Performing

/-!
What registrations make of an environment, told by the registrations alone. An enumeration is there
if some registration mentions it, and has the elements that were registered for it; an owner has the
parameters that were registered for it; a symbol or behavior has the functions of the host that came
with its registration. Registrations of other names in between are of no account.
-/

namespace BehaviorEngine

variable {σ : Type}

/-! ### Parts of an environment -/

/-- What has parameters. -/
inductive Owner where
  | input (d : Domain) (symbol : String)
  | behavior (name : String)
  deriving DecidableEq

/-- A parameter as it is registered. -/
structure RegisteredParameter where
  name : String
  enumeration : String
  slot : String

/-- The enumeration that a use of a domain mentions. -/
def Domain.mentions? (d : Domain) (enumeration : String) : Option String :=
  if d = .enumerated then some enumeration else none

namespace Registration

/-- The symbol or behavior that a registration makes or changes. -/
def subject? : Registration σ → Option Owner
  | input d name _ _ => some (.input d name)
  | inputParameter d symbol _ _ _ _ => some (.input d symbol)
  | inputChanged d symbol _ => some (.input d symbol)
  | behavior name _ _ => some (.behavior name)
  | behaviorParameter owner _ _ _ _ => some (.behavior owner)
  | element .. | output .. => none

/-- The enumeration that a registration mentions; it is created if there is none. -/
def mentions? : Registration σ → Option String
  | element enumeration _ _ => some enumeration
  | input d _ enumeration _ => d.mentions? enumeration
  | output d _ enumeration _ => d.mentions? enumeration
  | inputParameter _ _ p _ enumeration _ => p.mentions? enumeration
  | behaviorParameter _ p _ enumeration _ => p.mentions? enumeration
  | inputChanged .. | behavior .. => none

/-- The element that a registration adds to an enumeration. -/
def elementOf? (n : String) : Registration σ → Option (String × Int32)
  | element enumeration name value => if enumeration = n then some (name, value) else none
  | _ => none

/-- The parameter of a domain that a registration adds to an owner. -/
def parameterOf? (owner : Owner) (p : Domain) : Registration σ → Option RegisteredParameter
  | inputParameter d symbol p' name enumeration slot =>
    if Owner.input d symbol = owner ∧ p' = p then some ⟨name, enumeration, slot⟩ else none
  | behaviorParameter b p' name enumeration slot =>
    if Owner.behavior b = owner ∧ p' = p then some ⟨name, enumeration, slot⟩ else none
  | _ => none

/-- The function that a registration has told of new parameters of an input symbol. -/
def noticeOf? (d : Domain) (n : String) : Registration σ → Option (World σ → World σ)
  | inputChanged d' symbol call => if Owner.input d' symbol = .input d n then some call else none
  | _ => none

end Registration

namespace Draft

/-- The elements of an enumeration, none if there is no such enumeration. -/
def elementsOf (e : Draft σ) (n : String) : List (String × Int32) :=
  ((e.symbols.enumerations.get? n).map Registry.entries).getD []

/-- The parameters of an owner, none if there is no such owner. -/
def parametersOf (e : Draft σ) : Owner → Parameters String
  | .input d symbol =>
    (((e.symbols.inputs.get d).get? symbol).map InputSymbol.parameters).getD Parameters.none
  | .behavior name => ((e.behaviors.get? name).map BasicBehavior.parameters).getD Parameters.none

/-- The function that is told of new parameters of an input symbol. -/
def noticeOf (e : Draft σ) (d : Domain) (n : String) : Option (World σ → World σ) :=
  ((e.symbols.inputs.get d).get? n).bind InputSymbol.parametersChanged

/-- A parameter is there as it was registered. -/
structure HasParameter (e : Draft σ) {p : Domain} (x : String × Parameter String p)
    (registered : RegisteredParameter) : Prop where
  name : x.1 = registered.name
  typing : e.Names p x.2.typing registered.enumeration
  slot : x.2.slot = registered.slot

end Draft

/-! ### Enumerations -/

namespace Draft

variable {e e₁ : Draft σ} {enumeration n : String} {d : Domain}

theorem get?_withEnumeration : (e.withEnumeration enumeration).symbols.enumerations.get? n =
    if n = enumeration then some ((e.symbols.enumerations.get? enumeration).getD Registry.empty)
    else e.symbols.enumerations.get? n :=
  (e.symbols.enumerations.positionOrInsert_spec enumeration fun _ => Registry.empty).2 n

theorem mem_withEnumeration : n ∈ (e.withEnumeration enumeration).symbols.enumerations.names ↔
    n ∈ e.symbols.enumerations.names ∨ n = enumeration := by
  rw [Registry.mem_names_iff, Registry.mem_names_iff, get?_withEnumeration]
  split
  · next hn => simp [hn]
  · next hn => simp [hn]

theorem mem_typed : n ∈ (e.typed enumeration d).symbols.enumerations.names ↔
    n ∈ e.symbols.enumerations.names ∨ d.mentions? enumeration = some n := by
  unfold typed Domain.mentions?
  split
  · simp [mem_withEnumeration, eq_comm]
  · simp

@[simp] theorem elementsOf_withEnumeration :
    (e.withEnumeration enumeration).elementsOf n = e.elementsOf n := by
  rw [elementsOf, elementsOf, get?_withEnumeration]
  split
  · next hn =>
    subst hn
    cases e.symbols.enumerations.get? n <;> rfl
  · rfl

@[simp] theorem elementsOf_typed : (e.typed enumeration d).elementsOf n = e.elementsOf n := by
  unfold typed
  split
  · exact elementsOf_withEnumeration
  · rfl

/-- Enumerations keep their names. -/
theorem Names.mono (h : ∀ i n, e.symbols.enumerations.name? i = some n →
    e₁.symbols.enumerations.name? i = some n) {t : d.Typing} (ht : e.Names d t n) :
    e₁.Names d t n := by
  cases d with
  | decimal | boolean => trivial
  | enumerated => exact h t n ht

theorem name?_typed {i : Nat} (h : e.symbols.enumerations.name? i = some n) :
    (e.typed enumeration d).symbols.enumerations.name? i = some n := by
  unfold typed
  split
  · exact Registry.name?_positionOrInsert _ h
  · exact h

end Draft

namespace Registration

variable {e e₁ : Draft σ} {r : Registration σ} {n : String} {d : Domain}

namespace Performs

/-- A registration creates the enumeration that it mentions. -/
theorem mem_enumerations (h : r.Performs e e₁) : n ∈ e₁.symbols.enumerations.names ↔
    n ∈ e.symbols.enumerations.names ∨ r.mentions? = some n := by
  cases h with
  | element =>
    rw [Draft.setElements, Registry.names_modifyAt, Draft.mem_withEnumeration,
      mentions?, Option.some_inj, eq_comm (b := n)]
  | input | output | inputParameter | behaviorParameter => exact Draft.mem_typed
  | inputChanged | behavior => simp [mentions?, Draft.setInputs]

/-- A registration adds at most one element to an enumeration. -/
theorem elementsOf_eq (h : r.Performs e e₁) (n : String) :
    e₁.elementsOf n = e.elementsOf n ++ (r.elementOf? n).toList := by
  cases h with
  | @element enumeration name value i old elements hi happend =>
    have hkept : (e.withEnumeration enumeration).elementsOf n = e.elementsOf n :=
      Draft.elementsOf_withEnumeration
    rw [← hkept, Draft.elementsOf, Draft.elementsOf, Draft.setElements,
      Registry.get?_modifyAt hi, elementOf?]
    split
    · next hn =>
      rw [if_pos hn.symm, hn, Registry.find?_get? hi]
      exact Registry.entries_of_append happend
    · next hn =>
      rw [if_neg (Ne.symm hn)]
      exact (List.append_nil _).symm
  | input | output | inputParameter | behaviorParameter =>
    exact Draft.elementsOf_typed.trans (List.append_nil _).symm
  | inputChanged | behavior => exact (List.append_nil _).symm

/-- Enumerations keep their positions. -/
theorem name? (h : r.Performs e e₁) {i : Nat} (hi : e.symbols.enumerations.name? i = some n) :
    e₁.symbols.enumerations.name? i = some n := by
  cases h with
  | element =>
    rw [Draft.setElements, Registry.name?, Registry.names_modifyAt]
    exact Registry.name?_positionOrInsert _ hi
  | input | output | inputParameter | behaviorParameter => exact Draft.name?_typed hi
  | inputChanged | behavior => exact hi

theorem names (h : r.Performs e e₁) {t : d.Typing} (ht : e.Names d t n) : e₁.Names d t n :=
  ht.mono fun _ _ => h.name?

end Performs

end Registration

/-! ### Symbols and behaviors -/

namespace Draft

variable {e : Draft σ} {d d' : Domain} {n name : String}

/-- An input symbol is there as it was registered. -/
def HasInput (e : Draft σ) (d : Domain) (n enumeration : String)
    (binding : InputBinding σ d) : Prop :=
  ∃ s, (e.symbols.inputs.get d).get? n = some s ∧ s.binding = binding ∧
    e.Names d s.typing enumeration

/-- An output symbol is there as it was registered. -/
def HasOutput (e : Draft σ) (d : Domain) (n enumeration : String)
    (binding : OutputBinding σ d) : Prop :=
  ∃ s, (e.symbols.outputs.get d).get? n = some s ∧ s.binding = binding ∧
    e.Names d s.typing enumeration

/-- A basic behavior is there as it was registered. -/
def HasBehavior (e : Draft σ) (n : String) (run changed : World σ → World σ) : Prop :=
  ∃ b, e.behaviors.get? n = some b ∧ b.run = run ∧ b.parametersChanged = changed

theorem inputs_setInputs (e : Draft σ) (d : Domain) (inputs : Registry (InputSymbol σ d)) :
    (e.setInputs d inputs).symbols.inputs.get d = inputs := PerDomain.get_set _ _ _

/-- Input symbols of other names or domains are left alone. -/
theorem get?_setInputs_of_ne (h : Owner.input d' name ≠ .input d n)
    {inputs : Registry (InputSymbol σ d')}
    (hr : ∀ m, m ≠ name → inputs.get? m = (e.symbols.inputs.get d').get? m) :
    ((e.setInputs d' inputs).symbols.inputs.get d).get? n = (e.symbols.inputs.get d).get? n := by
  by_cases hd : d = d'
  · subst hd
    rw [inputs_setInputs]
    exact hr n fun hn => h (congrArg (Owner.input d) hn.symm)
  · rw [setInputs, PerDomain.get_set_of_ne _ _ hd]

theorem outputs_setOutputs (e : Draft σ) (d : Domain)
    (outputs : Registry (OutputSymbol σ d)) :
    (e.setOutputs d outputs).symbols.outputs.get d = outputs := PerDomain.get_set _ _ _

end Draft

namespace Registration

/-- What a registration does to the input symbol of a name. -/
inductive OnInput (e₁ : Draft σ) (d : Domain) (n : String) :
    Registration σ → Option (InputSymbol σ d) → Option (InputSymbol σ d) → Prop
  | kept {r : Registration σ} {x : Option (InputSymbol σ d)}
      (h : r.subject? ≠ some (.input d n)) : OnInput e₁ d n r x x
  | added {enumeration : String} {binding : InputBinding σ d} {t : d.Typing}
      (ht : e₁.Names d t enumeration) :
      OnInput e₁ d n (.input d n enumeration binding) none
        (some ⟨t, binding, Parameters.none, none⟩)
  | parameter {p : Domain} {name enumeration slot : String} {s : InputSymbol σ d} {t : p.Typing}
      {extended : Registry (Parameter String p)} (ht : e₁.Names p t enumeration)
      (h : (s.parameters.get p).append name ⟨t, slot⟩ = .ok extended) :
      OnInput e₁ d n (.inputParameter d n p name enumeration slot) (some s)
        (some { s with parameters := s.parameters.set p extended })
  | notice {call : World σ → World σ} {s : InputSymbol σ d} :
      OnInput e₁ d n (.inputChanged d n call) (some s)
        (some { s with parametersChanged := some call })

/-- What a registration does to the output symbol of a name. -/
inductive OnOutput (e₁ : Draft σ) (d : Domain) (n : String) :
    Registration σ → Option (OutputSymbol σ d) → Option (OutputSymbol σ d) → Prop
  | kept {r : Registration σ} {x : Option (OutputSymbol σ d)}
      (h : ∀ enumeration binding, r ≠ .output d n enumeration binding) : OnOutput e₁ d n r x x
  | added {enumeration : String} {binding : OutputBinding σ d} {t : d.Typing}
      (ht : e₁.Names d t enumeration) :
      OnOutput e₁ d n (.output d n enumeration binding) none (some ⟨t, binding⟩)

/-- What a registration does to the basic behavior of a name. -/
inductive OnBehavior (e₁ : Draft σ) (n : String) :
    Registration σ → Option (BasicBehavior σ) → Option (BasicBehavior σ) → Prop
  | kept {r : Registration σ} {x : Option (BasicBehavior σ)}
      (h : r.subject? ≠ some (.behavior n)) : OnBehavior e₁ n r x x
  | added {run changed : World σ → World σ} :
      OnBehavior e₁ n (.behavior n run changed) none (some ⟨Parameters.none, run, changed⟩)
  | parameter {p : Domain} {name enumeration slot : String} {b : BasicBehavior σ} {t : p.Typing}
      {extended : Registry (Parameter String p)} (ht : e₁.Names p t enumeration)
      (h : (b.parameters.get p).append name ⟨t, slot⟩ = .ok extended) :
      OnBehavior e₁ n (.behaviorParameter n p name enumeration slot) (some b)
        (some { b with parameters := b.parameters.set p extended })

namespace Performs

variable {e e₁ : Draft σ} {r : Registration σ}

theorem onInput (h : r.Performs e e₁) (d : Domain) (n : String) :
    OnInput e₁ d n r ((e.symbols.inputs.get d).get? n) ((e₁.symbols.inputs.get d).get? n) := by
  cases h with
  | element | behavior => exact .kept (by simp [subject?])
  | output =>
    rw [Draft.setOutputs, Draft.typed_inputs]
    exact .kept (by simp [subject?])
  | behaviorParameter =>
    rw [Draft.typed_inputs]
    exact .kept (by simp [subject?])
  | @input d' name enumeration binding t inputs ht happend =>
    obtain ⟨hnew, hget⟩ := Registry.get?_of_append happend
    by_cases hs : Owner.input d' name = .input d n
    · cases hs
      rw [Draft.inputs_setInputs, hnew, hget, if_pos rfl]
      exact .added ht
    · rw [Draft.get?_setInputs_of_ne hs fun m hm => by
        rw [hget, if_neg hm, Draft.typed_inputs], Draft.typed_inputs]
      exact .kept (by simpa [subject?] using hs)
  | @inputParameter d' p symbol name enumeration slot i s t extended hfound ht happend =>
    have hget := Registry.get?_modifyAt hfound fun _ =>
      { s with parameters := s.parameters.set p extended }
    by_cases hs : Owner.input d' symbol = .input d n
    · cases hs
      rw [Draft.inputs_setInputs, hget, if_pos rfl, Registry.find?_get? hfound]
      exact .parameter ht happend
    · rw [Draft.get?_setInputs_of_ne hs fun m hm => by
        rw [hget, if_neg hm, Draft.typed_inputs], Draft.typed_inputs]
      exact .kept (by simpa [subject?] using hs)
  | @inputChanged d' symbol call i s hfound =>
    have hget := Registry.get?_modifyAt hfound fun _ => { s with parametersChanged := some call }
    by_cases hs : Owner.input d' symbol = .input d n
    · cases hs
      rw [Draft.inputs_setInputs, hget, if_pos rfl, Registry.find?_get? hfound]
      exact .notice
    · rw [Draft.get?_setInputs_of_ne hs fun m hm => by rw [hget, if_neg hm]]
      exact .kept (by simpa [subject?] using hs)

theorem onOutput (h : r.Performs e e₁) (d : Domain) (n : String) :
    OnOutput e₁ d n r ((e.symbols.outputs.get d).get? n) ((e₁.symbols.outputs.get d).get? n) := by
  cases h with
  | element | inputChanged | behavior => exact .kept (by simp)
  | input | inputParameter =>
    rw [Draft.setInputs, Draft.typed_outputs]
    exact .kept (by simp)
  | behaviorParameter =>
    rw [Draft.typed_outputs]
    exact .kept (by simp)
  | @output d' name enumeration binding t outputs ht happend =>
    obtain ⟨hnew, hget⟩ := Registry.get?_of_append happend
    by_cases hd : d = d'
    · subst hd
      rw [Draft.outputs_setOutputs, hget]
      by_cases hn : n = name
      · subst hn
        rw [hnew, if_pos rfl]
        exact .added ht
      · rw [if_neg hn]
        exact .kept (by simp [Ne.symm hn])
    · rw [Draft.setOutputs, PerDomain.get_set_of_ne _ _ hd, Draft.typed_outputs]
      exact .kept (by simp [Ne.symm hd])

theorem onBehavior (h : r.Performs e e₁) (n : String) :
    OnBehavior e₁ n r (e.behaviors.get? n) (e₁.behaviors.get? n) := by
  cases h with
  | element | inputChanged => exact .kept (by simp [subject?])
  | input | inputParameter =>
    rw [Draft.setInputs, Draft.typed_behaviors]
    exact .kept (by simp [subject?])
  | output =>
    rw [Draft.setOutputs, Draft.typed_behaviors]
    exact .kept (by simp [subject?])
  | @behavior name run changed behaviors happend =>
    obtain ⟨hnew, hget⟩ := Registry.get?_of_append happend
    by_cases hs : n = name
    · subst hs
      rw [hnew, hget, if_pos rfl]
      exact .added
    · rw [hget, if_neg hs]
      exact .kept (by simpa [subject?] using Ne.symm hs)
  | @behaviorParameter p owner name enumeration slot i b t extended hfound ht happend =>
    have hget := Registry.get?_modifyAt hfound fun _ =>
      { b with parameters := b.parameters.set p extended }
    by_cases hs : n = owner
    · subst hs
      rw [hget, if_pos rfl, Registry.find?_get? hfound]
      exact .parameter ht happend
    · rw [hget, if_neg hs]
      exact .kept (by simpa [subject?] using Ne.symm hs)

end Performs

/-! ### Parameters -/

variable {e e₁ : Draft σ} {r : Registration σ} {owner : Owner} {d p : Domain} {n : String}

theorem parameterOf?_eq_none (h : r.subject? ≠ some owner) : r.parameterOf? owner p = none := by
  cases r with
  | inputParameter | behaviorParameter => exact if_neg fun ho => h (congrArg some ho.1)
  | _ => rfl

theorem noticeOf?_eq_none (h : r.subject? ≠ some (.input d n)) : r.noticeOf? d n = none := by
  cases r with
  | inputChanged => exact if_neg fun hs => h (congrArg some hs)
  | _ => rfl

/-- Parameters that a registration adds to those of an owner. -/
def Adds (e₁ : Draft σ) (owner : Owner) (r : Registration σ) (ps ps₁ : Parameters String) :
    Prop :=
  ∀ p, ∃ xs, (ps₁.get p).entries = (ps.get p).entries ++ xs ∧
    List.Forall₂ e₁.HasParameter xs (r.parameterOf? owner p).toList

/-- No parameter is added. -/
theorem adds_refl (e₁ : Draft σ) (ps : Parameters String)
    (h : ∀ p, r.parameterOf? owner p = none) : Adds e₁ owner r ps ps :=
  fun p => ⟨[], (List.append_nil _).symm, by rw [h p]; exact .nil⟩

/-- One parameter is added. -/
theorem adds_set {ps : Parameters String} (x : RegisteredParameter) {t : p.Typing}
    {extended : Registry (Parameter String p)}
    (hr : ∀ p', r.parameterOf? owner p' = if p = p' then some x else none)
    (ht : e₁.Names p t x.enumeration) (h : (ps.get p).append x.name ⟨t, x.slot⟩ = .ok extended) :
    Adds e₁ owner r ps (ps.set p extended) := by
  intro p'
  by_cases hp : p' = p
  · subst hp
    rw [PerDomain.get_set, hr, if_pos rfl]
    exact ⟨_, Registry.entries_of_append h, .cons ⟨rfl, ht, rfl⟩ .nil⟩
  · rw [PerDomain.get_set_of_ne _ _ hp, hr, if_neg (Ne.symm hp)]
    exact ⟨[], (List.append_nil _).symm, .nil⟩

theorem OnInput.adds {x x₁ : Option (InputSymbol σ d)} (h : OnInput e₁ d n r x x₁) :
    Adds e₁ (.input d n) r ((x.map InputSymbol.parameters).getD Parameters.none)
      ((x₁.map InputSymbol.parameters).getD Parameters.none) := by
  cases h with
  | kept h => exact adds_refl _ _ fun _ => parameterOf?_eq_none h
  | added | notice => exact adds_refl _ _ fun _ => rfl
  | @parameter p name enumeration slot _ _ _ ht h =>
    exact adds_set ⟨name, enumeration, slot⟩ (fun _ => by simp [parameterOf?]) ht h

theorem OnBehavior.adds {x x₁ : Option (BasicBehavior σ)} (h : OnBehavior e₁ n r x x₁) :
    Adds e₁ (.behavior n) r ((x.map BasicBehavior.parameters).getD Parameters.none)
      ((x₁.map BasicBehavior.parameters).getD Parameters.none) := by
  cases h with
  | kept h => exact adds_refl _ _ fun _ => parameterOf?_eq_none h
  | added => exact adds_refl _ _ fun _ => rfl
  | @parameter p name enumeration slot _ _ _ ht h =>
    exact adds_set ⟨name, enumeration, slot⟩ (fun _ => by simp [parameterOf?]) ht h

/-- A later function takes the place of an earlier one. -/
theorem OnInput.notice_eq {x x₁ : Option (InputSymbol σ d)} (h : OnInput e₁ d n r x x₁) :
    x₁.bind InputSymbol.parametersChanged =
      (r.noticeOf? d n).or (x.bind InputSymbol.parametersChanged) := by
  cases h with
  | kept h => rw [noticeOf?_eq_none h, Option.none_or]
  | added | parameter => rfl
  | notice => simp [noticeOf?]

namespace Performs

/-- A registration adds at most one parameter to an owner, after those that it has. -/
theorem adds (h : r.Performs e e₁) (owner : Owner) :
    Adds e₁ owner r (e.parametersOf owner) (e₁.parametersOf owner) := by
  cases owner with
  | input d n => exact (h.onInput d n).adds
  | behavior n => exact (h.onBehavior n).adds

theorem noticeOf_eq (h : r.Performs e e₁) (d : Domain) (n : String) :
    e₁.noticeOf d n = (r.noticeOf? d n).or (e.noticeOf d n) := (h.onInput d n).notice_eq

end Performs

/-! ### Functions of the host -/

theorem OnInput.isSome_iff {x x₁ : Option (InputSymbol σ d)} (h : OnInput e₁ d n r x x₁) :
    x₁.isSome ↔ x.isSome ∨ ∃ enumeration binding, r = .input d n enumeration binding := by
  cases h with
  | kept h =>
    refine (or_iff_left ?_).symm
    rintro ⟨enumeration, binding, rfl⟩
    exact h rfl
  | added => simp
  | parameter | notice => simp

/-- The function that supplies an input symbol stays the one that it was registered with. -/
theorem OnInput.header_eq {x x₁ : Option (InputSymbol σ d)} (h : OnInput e₁ d n r x x₁)
    {s : InputSymbol σ d} (hs : x = some s) :
    ∃ s₁, x₁ = some s₁ ∧ s₁.binding = s.binding ∧ s₁.typing = s.typing := by
  cases h with
  | kept => exact ⟨s, hs, rfl, rfl⟩
  | added => cases hs
  | parameter | notice =>
    cases hs
    exact ⟨_, rfl, rfl, rfl⟩

theorem OnInput.added_eq {x x₁ : Option (InputSymbol σ d)} {enumeration : String}
    {binding : InputBinding σ d} (h : OnInput e₁ d n (.input d n enumeration binding) x x₁) :
    ∃ s, x₁ = some s ∧ s.binding = binding ∧ e₁.Names d s.typing enumeration := by
  cases h with
  | kept h => exact absurd rfl h
  | added ht => exact ⟨_, rfl, rfl, ht⟩

theorem OnBehavior.isSome_iff {x x₁ : Option (BasicBehavior σ)} (h : OnBehavior e₁ n r x x₁) :
    x₁.isSome ↔ x.isSome ∨ ∃ run changed, r = .behavior n run changed := by
  cases h with
  | kept h =>
    refine (or_iff_left ?_).symm
    rintro ⟨run, changed, rfl⟩
    exact h rfl
  | added => simp
  | parameter => simp

/-- The functions of a basic behavior stay those that it was registered with. -/
theorem OnBehavior.header_eq {x x₁ : Option (BasicBehavior σ)} (h : OnBehavior e₁ n r x x₁)
    {b : BasicBehavior σ} (hb : x = some b) :
    ∃ b₁, x₁ = some b₁ ∧ b₁.run = b.run ∧ b₁.parametersChanged = b.parametersChanged := by
  cases h with
  | kept => exact ⟨b, hb, rfl, rfl⟩
  | added => cases hb
  | parameter =>
    cases hb
    exact ⟨_, rfl, rfl, rfl⟩

theorem OnBehavior.added_eq {x x₁ : Option (BasicBehavior σ)} {run changed : World σ → World σ}
    (h : OnBehavior e₁ n (.behavior n run changed) x x₁) :
    ∃ b, x₁ = some b ∧ b.run = run ∧ b.parametersChanged = changed := by
  cases h with
  | kept h => exact absurd rfl h
  | added => exact ⟨_, rfl, rfl, rfl⟩

theorem OnOutput.isSome_iff {x x₁ : Option (OutputSymbol σ d)} (h : OnOutput e₁ d n r x x₁) :
    x₁.isSome ↔ x.isSome ∨ ∃ enumeration binding, r = .output d n enumeration binding := by
  cases h with
  | kept h =>
    refine (or_iff_left ?_).symm
    rintro ⟨enumeration, binding, rfl⟩
    exact h _ _ rfl
  | added => simp

theorem OnOutput.kept_eq {x x₁ : Option (OutputSymbol σ d)} (h : OnOutput e₁ d n r x x₁)
    {s : OutputSymbol σ d} (hs : x = some s) : x₁ = some s := by
  cases h with
  | kept => exact hs
  | added => cases hs

theorem OnOutput.added_eq {x x₁ : Option (OutputSymbol σ d)} {enumeration : String}
    {binding : OutputBinding σ d} (h : OnOutput e₁ d n (.output d n enumeration binding) x x₁) :
    ∃ s, x₁ = some s ∧ s.binding = binding ∧ e₁.Names d s.typing enumeration := by
  cases h with
  | kept h => exact absurd rfl (h _ _)
  | added ht => exact ⟨_, rfl, rfl, ht⟩

namespace Performs

variable {enumeration : String}

theorem hasInput {binding : InputBinding σ d}
    (h : (Registration.input d n enumeration binding).Performs e e₁) :
    e₁.HasInput d n enumeration binding := (h.onInput d n).added_eq

theorem hasInput_mono (h : r.Performs e e₁) {binding : InputBinding σ d}
    (hi : e.HasInput d n enumeration binding) : e₁.HasInput d n enumeration binding := by
  obtain ⟨s, hs, rfl, ht⟩ := hi
  obtain ⟨s₁, hs₁, hbinding, htyping⟩ := (h.onInput d n).header_eq hs
  exact ⟨s₁, hs₁, hbinding, htyping ▸ h.names ht⟩

theorem hasOutput {binding : OutputBinding σ d}
    (h : (Registration.output d n enumeration binding).Performs e e₁) :
    e₁.HasOutput d n enumeration binding := (h.onOutput d n).added_eq

theorem hasOutput_mono (h : r.Performs e e₁) {binding : OutputBinding σ d}
    (ho : e.HasOutput d n enumeration binding) : e₁.HasOutput d n enumeration binding := by
  obtain ⟨s, hs, hbinding, ht⟩ := ho
  exact ⟨s, (h.onOutput d n).kept_eq hs, hbinding, h.names ht⟩

theorem hasBehavior {run changed : World σ → World σ}
    (h : (Registration.behavior n run changed).Performs e e₁) :
    e₁.HasBehavior n run changed := (h.onBehavior n).added_eq

theorem hasBehavior_mono (h : r.Performs e e₁) {run changed : World σ → World σ}
    (hb : e.HasBehavior n run changed) : e₁.HasBehavior n run changed := by
  obtain ⟨b, hb, rfl, rfl⟩ := hb
  exact (h.onBehavior n).header_eq hb

end Performs

end Registration

end BehaviorEngine
