import BehaviorEngine.Host.Soundness
import BehaviorEngine.Proofs.Registry

/-!
Registrations that are refused. A registration looks up what it needs before it changes anything,
and an enumeration that it creates has no elements yet. So a refused registration leaves everything
as it was, with one exception: a parameter over a new enumeration whose owner has a parameter of the
same name leaves the enumeration behind.
-/

namespace BehaviorEngine

variable {σ : Type}

/-! ### Calls -/

/-- A call that registers something. -/
inductive Registration (σ : Type) where
  | element (enumeration name : String) (value : Int32)
  | input (d : Domain) (name enumeration : String) (binding : InputBinding σ d)
  | output (d : Domain) (name enumeration : String) (binding : OutputBinding σ d)
  /-- A parameter of domain `p` of the input symbol `symbol` of domain `d`. -/
  | inputParameter (d : Domain) (symbol : String) (p : Domain) (name enumeration slot : String)
  | inputChanged (d : Domain) (symbol : String) (call : World σ → World σ)
  | behavior (name : String) (run parametersChanged : World σ → World σ)
  | behaviorParameter (owner : String) (p : Domain) (name enumeration slot : String)

namespace Registration

/-- Carries out a call. -/
def perform : Registration σ → Registering σ Unit
  | element enumeration name value => Registering.element enumeration name value
  | input d name enumeration binding => Registering.input d name enumeration binding
  | output d name enumeration binding => Registering.output d name enumeration binding
  | inputParameter d symbol p name enumeration slot =>
    Registering.inputParameter d symbol p name enumeration slot
  | inputChanged d symbol call => Registering.inputChanged d symbol call
  | behavior name run parametersChanged => Registering.behavior name run parametersChanged
  | behaviorParameter owner p name enumeration slot =>
    Registering.behaviorParameter owner p name enumeration slot

theorem perform_keeps : (r : Registration σ) → r.perform.KeepsSound
  | element enumeration name value => Registering.element_keeps enumeration name value
  | input d name enumeration binding => Registering.input_keeps d name enumeration binding
  | output d name enumeration binding => Registering.output_keeps d name enumeration binding
  | inputParameter d symbol p name enumeration slot =>
    Registering.inputParameter_keeps d symbol p name enumeration slot
  | inputChanged d symbol call => Registering.inputChanged_keeps d symbol call
  | behavior name run parametersChanged => Registering.behavior_keeps name run parametersChanged
  | behaviorParameter owner p name enumeration slot =>
    Registering.behaviorParameter_keeps owner p name enumeration slot

/-- The enumeration of the parameter that a call registers, if it is an enumerated one. -/
def parameterEnumeration? : Registration σ → Option String
  | inputParameter _ _ .enumerated _ enumeration _ => some enumeration
  | behaviorParameter _ .enumerated _ enumeration _ => some enumeration
  | _ => none

end Registration

/-- The error is that an owner has a parameter of the name already. -/
def RegistrationError.RepeatsParameter (error : RegistrationError) : Prop :=
  ∃ kind owner parameter, error = .duplicateParameter kind owner parameter

/-- The environment with an enumeration, which is created without elements if there is none. -/
def Draft.withEnumeration (e : Draft σ) (name : String) : Draft σ :=
  { e with symbols := { e.symbols with
      enumerations := (e.symbols.enumerations.positionOrInsert name fun _ => Registry.empty).2 } }

namespace Draft

variable {e : Draft σ} {name : String}

theorem withEnumeration_of_mem (h : name ∈ e.symbols.enumerations.names) :
    e.withEnumeration name = e := by
  rw [withEnumeration, Registry.positionOrInsert_of_mem h]

theorem enumerations_withEnumeration (h : name ∉ e.symbols.enumerations.names) :
    (e.withEnumeration name).symbols.enumerations.entries =
      e.symbols.enumerations.entries ++ [(name, Registry.empty)] :=
  (Registry.positionOrInsert_of_notMem h _).2

/-- The environment after the typing of a symbol or parameter of a domain. -/
def typed (e : Draft σ) (enumeration : String) (d : Domain) : Draft σ :=
  if d = .enumerated then e.withEnumeration enumeration else e

variable {d : Domain}

@[simp] theorem typed_inputs : (e.typed name d).symbols.inputs = e.symbols.inputs := by
  unfold typed
  split <;> rfl

@[simp] theorem typed_outputs : (e.typed name d).symbols.outputs = e.symbols.outputs := by
  unfold typed
  split <;> rfl

@[simp] theorem typed_behaviors : (e.typed name d).behaviors = e.behaviors := by
  unfold typed
  split <;> rfl

end Draft

/-! ### Steps of a registration -/

namespace Registering

variable {α β : Type} {e e' : Draft σ} {error : RegistrationError}

/-- An entry is added under a new name. -/
theorem runOn_append {r : Registry β} {name : String} (h : name ∉ r.names) (kind : NameKind)
    (x : β) (e : Draft σ) :
    ∃ s, (append kind r name x : Registering σ _).runOn e = (.ok s, e) := by
  obtain ⟨s, hs, -⟩ := Registry.append_of_notMem h x
  exact ⟨s, by rw [append, hs]; rfl⟩

/-- An entry is not added under a name that is present. -/
theorem append_refused {kind : NameKind} {r : Registry β} {name : String} {x : β}
    (h : (append kind r name x : Registering σ _).runOn e = (.error error, e')) : e' = e := by
  unfold append at h
  split at h <;> cases h
  rfl

theorem runOn_enumeration (name : String) (e : Draft σ) :
    (enumeration name).runOn e =
      (.ok (e.symbols.enumerations.positionOrInsert name fun _ => Registry.empty).1,
        e.withEnumeration name) := rfl

theorem runOn_findInput (d : Domain) (symbol : String) (e : Draft σ) :
    (findInput d symbol).runOn e = match (e.symbols.inputs.get d).find? symbol with
      | some found => (.ok found, e)
      | none => (.error (.unknown (.inputSymbol d) symbol), e) := by
  unfold findInput
  rw [Stateful.runOn_get_bind]
  cases (e.symbols.inputs.get d).find? symbol <;> rfl

theorem runOn_findBehavior (name : String) (e : Draft σ) :
    (findBehavior name).runOn e = match e.behaviors.find? name with
      | some found => (.ok found, e)
      | none => (.error (.unknown .basicBehavior name), e) := by
  unfold findBehavior
  rw [Stateful.runOn_get_bind]
  cases e.behaviors.find? name <;> rfl

/-- A typing is never refused; for an enumerated one there is the enumeration afterwards. -/
theorem runOn_typing (enumeration : String) (d : Domain) (e : Draft σ) :
    ∃ t, (typing enumeration d).runOn e = (.ok t, e.typed enumeration d) := by
  cases d with
  | decimal | boolean => exact ⟨(), rfl⟩
  | enumerated => exact ⟨_, runOn_enumeration enumeration e⟩

/-! ### Refusals -/

/-- Elements are refused only by an enumeration that has some. -/
theorem element_refused {enumeration name : String} {value : Int32}
    (h : (element enumeration name value).runOn e = (.error error, e')) : e' = e := by
  rw [element, Stateful.runOn_bind, runOn_enumeration] at h
  simp only [Stateful.runOn_get_bind] at h
  by_cases hmem : enumeration ∈ e.symbols.enumerations.names
  · rw [Draft.withEnumeration_of_mem hmem] at h
    split at h
    · cases h
      rfl
    · split at h
      · cases h
      · cases h
        rfl
  · have hposition := (Registry.positionOrInsert_of_notMem hmem fun _ => Registry.empty).1
    have hnew : (e.withEnumeration enumeration).symbols.enumerations.at?
        e.symbols.enumerations.size = some Registry.empty := by
      rw [Registry.at?_eq, Draft.enumerations_withEnumeration hmem]
      simp [Registry.size]
    have hfirst : name ∉ (Registry.empty : Enumeration).names := List.not_mem_nil
    obtain ⟨elements, helements, -⟩ := Registry.append_of_notMem hfirst value
    simp only [hposition, hnew, helements] at h
    cases h

theorem input_refused {d : Domain} {name enumeration : String} {binding : InputBinding σ d}
    (h : (input d name enumeration binding).runOn e = (.error error, e')) : e' = e := by
  rw [input, Stateful.runOn_get_bind] at h
  split at h
  · cases h
    rfl
  · next hnew =>
    -- The name is new, before and after the enumeration of the symbol is there.
    have hmem : name ∉ (e.symbols.inputs.get d).names := by simpa [Registry.contains] using hnew
    obtain ⟨t, ht⟩ := runOn_typing enumeration d e
    rw [Stateful.runOn_bind, ht] at h
    simp only [Stateful.runOn_get_bind, Draft.typed_inputs] at h
    obtain ⟨inputs, hinputs⟩ := runOn_append hmem (.inputSymbol d)
      (⟨t, binding, Parameters.none, none⟩ : InputSymbol σ d) (e.typed enumeration d)
    rw [Stateful.runOn_bind, hinputs] at h
    cases h

theorem output_refused {d : Domain} {name enumeration : String} {binding : OutputBinding σ d}
    (h : (output d name enumeration binding).runOn e = (.error error, e')) : e' = e := by
  rw [output, Stateful.runOn_get_bind] at h
  split at h
  · cases h
    rfl
  · next hnew =>
    have hmem : name ∉ (e.symbols.outputs.get d).names := by simpa [Registry.contains] using hnew
    obtain ⟨t, ht⟩ := runOn_typing enumeration d e
    rw [Stateful.runOn_bind, ht] at h
    simp only [Stateful.runOn_get_bind, Draft.typed_outputs] at h
    obtain ⟨outputs, houtputs⟩ := runOn_append hmem (.outputSymbol d)
      (⟨t, binding⟩ : OutputSymbol σ d) (e.typed enumeration d)
    rw [Stateful.runOn_bind, houtputs] at h
    cases h

theorem inputChanged_refused {d : Domain} {symbol : String} {call : World σ → World σ}
    (h : (inputChanged d symbol call).runOn e = (.error error, e')) : e' = e := by
  rw [inputChanged, Stateful.runOn_bind, runOn_findInput] at h
  cases hs : (e.symbols.inputs.get d).find? symbol with
  | none =>
    rw [hs] at h
    cases h
    rfl
  | some found =>
    rw [hs] at h
    cases h

theorem behavior_refused {name : String} {run changed : World σ → World σ}
    (h : (behavior name run changed).runOn e = (.error error, e')) : e' = e := by
  rw [behavior, Stateful.runOn_get_bind] at h
  rcases Stateful.bind_eq_error_iff.1 h with h | ⟨behaviors, e₁, -, h⟩
  · exact append_refused h
  · cases h

/-! ### Parameters -/

/-- A parameter is refused only because its domain has one of that name. -/
theorem register_error {parameters : Parameters String} {owner name : String} {p : Domain}
    {x : Parameter String p} (h : parameters.register owner p name x = .error error) :
    error = .duplicateParameter (.parameter p) owner name := by
  unfold Parameters.register at h
  cases hd : parameters.declare p name x with
  | error =>
    rw [hd] at h
    cases h
    rfl
  | ok => simp [hd, Except.mapError] at h

/-- A parameter of an input symbol is refused before anything is done, or because its name is
taken. -/
theorem inputParameter_refused {d p : Domain} {symbol name enumeration slot : String}
    (h : (inputParameter d symbol p name enumeration slot).runOn e = (.error error, e')) :
    (e' = e ∧ ¬ error.RepeatsParameter) ∨
      (e' = e.typed enumeration p ∧ error.RepeatsParameter) := by
  rw [inputParameter, Stateful.runOn_bind, runOn_findInput] at h
  cases hs : (e.symbols.inputs.get d).find? symbol with
  | none =>
    rw [hs] at h
    cases h
    exact .inl ⟨rfl, nofun⟩
  | some found =>
    obtain ⟨i, s⟩ := found
    obtain ⟨t, ht⟩ := runOn_typing enumeration p e
    simp only [hs] at h
    rw [Stateful.runOn_bind, ht] at h
    simp only [Stateful.runOn_bind, runOn_findInput, Draft.typed_inputs, hs] at h
    split at h
    · cases h
    · next hregister =>
      cases h
      exact .inr ⟨rfl, _, _, _, register_error hregister⟩

/-- A parameter of a basic behavior is refused before anything is done, or because its name is
taken. -/
theorem behaviorParameter_refused {p : Domain} {owner name enumeration slot : String}
    (h : (behaviorParameter owner p name enumeration slot).runOn e = (.error error, e')) :
    (e' = e ∧ ¬ error.RepeatsParameter) ∨
      (e' = e.typed enumeration p ∧ error.RepeatsParameter) := by
  rw [behaviorParameter, Stateful.runOn_bind, runOn_findBehavior] at h
  cases hs : e.behaviors.find? owner with
  | none =>
    rw [hs] at h
    cases h
    exact .inl ⟨rfl, nofun⟩
  | some found =>
    obtain ⟨i, b⟩ := found
    obtain ⟨t, ht⟩ := runOn_typing enumeration p e
    simp only [hs] at h
    rw [Stateful.runOn_bind, ht] at h
    simp only [Stateful.runOn_bind, runOn_findBehavior, Draft.typed_behaviors, hs] at h
    split at h
    · cases h
    · next hregister =>
      cases h
      exact .inr ⟨rfl, _, _, _, register_error hregister⟩

end Registering

/-! ### All calls -/

/-- The environment after a call, which may have been refused. -/
def Draft.register (e : Draft σ) (r : Registration σ) : Draft σ :=
  (r.perform.runOn e).2

namespace Registration

variable {e e' : Draft σ} {error : RegistrationError}

/-- Only a repeated parameter is refused after its typing. -/
theorem refused_cases {r : Registration σ} (h : r.perform.runOn e = (.error error, e')) :
    (e' = e ∧ ∀ name ∈ r.parameterEnumeration?, ¬ error.RepeatsParameter) ∨
      ∃ name ∈ r.parameterEnumeration?, error.RepeatsParameter ∧ e' = e.withEnumeration name := by
  cases r with
  | element => exact .inl ⟨Registering.element_refused h, nofun⟩
  | input => exact .inl ⟨Registering.input_refused h, nofun⟩
  | output => exact .inl ⟨Registering.output_refused h, nofun⟩
  | inputChanged => exact .inl ⟨Registering.inputChanged_refused h, nofun⟩
  | behavior => exact .inl ⟨Registering.behavior_refused h, nofun⟩
  | inputParameter d symbol p name enumeration slot =>
    rcases Registering.inputParameter_refused h with ⟨he, hr⟩ | ⟨he, hr⟩
    · exact .inl ⟨he, fun _ _ => hr⟩
    · cases p with
      | decimal | boolean => exact .inl ⟨he, nofun⟩
      | enumerated => exact .inr ⟨enumeration, rfl, hr, he⟩
  | behaviorParameter owner p name enumeration slot =>
    rcases Registering.behaviorParameter_refused h with ⟨he, hr⟩ | ⟨he, hr⟩
    · exact .inl ⟨he, fun _ _ => hr⟩
    · cases p with
      | decimal | boolean => exact .inl ⟨he, nofun⟩
      | enumerated => exact .inr ⟨enumeration, rfl, hr, he⟩

/-- **What a refused registration leaves behind.** Whatever has been registered before, a call that
is refused leaves the environment as it was, unless it is for a parameter that its owner has
already, over an enumeration that was not there. Then the enumeration is left behind without
elements, after the others, and nothing else is changed. -/
theorem refused_leaves (r : Registration σ) (e : Draft σ) (error : RegistrationError)
    (h : (r.perform.runOn e).1 = .error error) :
    (e.register r = e ∧ ∀ name ∈ r.parameterEnumeration?,
      name ∉ e.symbols.enumerations.names → ¬ error.RepeatsParameter) ∨
    (e.register r ≠ e ∧ error.RepeatsParameter ∧ ∃ name ∈ r.parameterEnumeration?,
      name ∉ e.symbols.enumerations.names ∧
      (e.register r).symbols.enumerations.entries =
        e.symbols.enumerations.entries ++ [(name, Registry.empty)] ∧
      (e.register r).symbols.inputs = e.symbols.inputs ∧
      (e.register r).symbols.outputs = e.symbols.outputs ∧
      (e.register r).behaviors = e.behaviors) := by
  have hrun : r.perform.runOn e = (.error error, e.register r) := Prod.ext h rfl
  rcases refused_cases hrun with ⟨he, hr⟩ | ⟨name, hname, hr, he⟩
  · exact .inl ⟨he, fun name hname _ => hr name hname⟩
  · by_cases hmem : name ∈ e.symbols.enumerations.names
    · rw [Draft.withEnumeration_of_mem hmem] at he
      refine .inl ⟨he, fun other hother hnew => ?_⟩
      obtain rfl := Option.some_inj.1 (hname.symm.trans hother)
      exact absurd hmem hnew
    · have hentries := Draft.enumerations_withEnumeration hmem
      rw [← he] at hentries
      refine .inr ⟨fun hsame => ?_, hr, name, hname, hmem, hentries, ?_, ?_, ?_⟩
      · rw [hsame] at hentries
        simp at hentries
      all_goals rw [he]; rfl

/-- A symbol with an enumerated parameter, repeated over another enumeration. -/
theorem refused_leaves_repeated :
    let e := ((Draft.empty : Draft Unit).register
      (.input .decimal "f" "" (.cell "f"))).register
      (.inputParameter .decimal "f" .enumerated "side" "sides" "slot")
    let r : Registration Unit := .inputParameter .decimal "f" .enumerated "side" "ends" "slot"
    (r.perform.runOn e).1 =
      .error (.duplicateParameter (.parameter .enumerated) "f" "side") ∧
    e.symbols.enumerations.names = ["sides"] ∧
    (e.register r).symbols.enumerations.names = ["sides", "ends"] := by
  intro e r
  have h : (r.perform.runOn e).1 =
      .error (.duplicateParameter (.parameter .enumerated) "f" "side") := by rfl
  refine ⟨h, rfl, ?_⟩
  rcases refused_leaves r e _ h with ⟨-, hr⟩ | ⟨-, -, name, hname, -, hentries, -⟩
  · exact absurd ⟨_, _, _, rfl⟩ (hr "ends" rfl (by decide))
  · obtain rfl := Option.some_inj.1 hname
    rw [Registry.names, hentries]
    rfl

end Registration

end BehaviorEngine
