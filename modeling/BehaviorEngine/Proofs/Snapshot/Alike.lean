import BehaviorEngine.Proofs.Snapshot.Completion

/-!
Two snapshots. A snapshot reads the output symbols, the slots of basic behaviors and what options
keep that have run. Where two hosts and two lists of options agree about that, the walks add the
same entries, and they leave hosts that agree again.
-/

namespace BehaviorEngine

open Partial

variable {σ : Type}

/-- Worlds that are related have the same values of output symbols, are related still when these
have been read, and have the same values in the slots of basic behaviors. -/
structure Environment.ShowsAlike (environment : Environment σ) (R : World σ → World σ → Prop) :
    Prop where
  output : ∀ (d : Domain) (k : Nat) (symbol : OutputSymbol σ d),
    (environment.symbols.outputs.get d).at? k = some symbol → ∀ w w', R w w' →
    (symbol.binding.read w).1 = (symbol.binding.read w').1 ∧
      R (symbol.binding.read w).2 (symbol.binding.read w').2
  slot : ∀ (k : Nat) (behavior : BasicBehavior σ), environment.behaviors.at? k = some behavior →
    ∀ (d : Domain) (i : Nat) (x : Parameter String d),
    (behavior.parameters.get d).at? i = some x → ∀ w w', R w w' →
    w.read d x.slot = w'.read d x.slot

/-- Two options ran in a cycle or not, and if they ran they keep the same about that. -/
structure Activation.ShowsAlike (cycle : Nat) (a b : Activation) : Prop where
  ranIn : a.ranIn cycle = b.ranIn cycle
  elapsed : a.ranIn cycle = true → a.elapsed = b.elapsed
  executed : a.ranIn cycle = true → a.executed = b.executed
  stateTime : a.ranIn cycle = true → a.stateTime? a.executed = b.stateTime? b.executed
  parameters : a.ranIn cycle = true → a.parameters = b.parameters

theorem Activation.ShowsAlike.refl {cycle : Nat} (a : Activation) : a.ShowsAlike cycle a :=
  ⟨rfl, fun _ => rfl, fun _ => rfl, fun _ => rfl, fun _ => rfl⟩

/-- Parameters are shown alike where their slots hold the same. -/
theorem Parameters.inSlots?_congr {symbols : Symbols σ} {w w' : World σ} {p : Parameters String}
    (h : ∀ (d : Domain) (i : Nat) (x : Parameter String d), (p.get d).at? i = some x →
      w.read d x.slot = w'.read d x.slot) : p.inSlots? symbols w = p.inSlots? symbols w' := by
  refine congrArg (List.mapM id) (List.flatMap_congr fun d _ => List.map_congr_left ?_)
  rintro ⟨name, x⟩ hx
  obtain ⟨i, hi⟩ := List.getElem?_of_mem hx
  have hslot := h d i x (by rw [Registry.at?_eq, hi]; rfl)
  simp only [hslot]

namespace Walk

/-- Two walks have met the same. -/
structure Alike (R : World σ → World σ → Prop) (w w' : Walk σ) : Prop where
  visited : w.visited = w'.visited
  entries : w.entries = w'.entries
  world : R w.world w'.world

/-- Two steps take walks that have met the same to walks that have. -/
def KeepAlike (R : World σ → World σ → Prop) (x y : StateT (Walk σ) Option Unit) : Prop :=
  ∀ ⦃w w' w₁ w₁'⦄, Alike R w w' → x w = some ((), w₁) → y w' = some ((), w₁') → Alike R w₁ w₁'

variable {p : Program σ} {R : World σ → World σ → Prop} {depth : Nat}
  {walkOption walkOption' : Nat → StateT (Walk σ) Option Unit}

theorem action_alike (hR : p.environment.ShowsAlike R)
    (hwalk : ∀ i, KeepAlike R (walkOption i) (walkOption' i)) (a : Action) :
    KeepAlike R (action p walkOption depth a) (action p walkOption' depth a) := by
  intro w w' w₁ w₁' hw h h'
  cases a with
  | activate target => exact hwalk target hw h h'
  | behave k =>
    obtain ⟨behavior, name, parameters, hb, hname, hparameters, rfl⟩ := behave_eq_some h
    obtain ⟨behavior', name', parameters', hb', hname', hparameters', rfl⟩ := behave_eq_some h'
    obtain rfl := Option.some_inj.1 (hb.symm.trans hb')
    obtain rfl := Option.some_inj.1 (hname.symm.trans hname')
    rw [Parameters.inSlots?_congr fun d i x hx =>
      hR.slot k behavior hb d i x hx _ _ hw.world] at hparameters
    obtain rfl := Option.some_inj.1 (hparameters.symm.trans hparameters')
    refine ⟨hw.visited, ?_, hw.world⟩
    rw [hw.entries]
  | assign k expression =>
    obtain ⟨symbol, name, value, hk, hname, hshown, rfl⟩ := assign_eq_some h
    obtain ⟨symbol', name', value', hk', hname', hshown', rfl⟩ := assign_eq_some h'
    obtain rfl := Option.some_inj.1 (hk.symm.trans hk')
    obtain rfl := Option.some_inj.1 (hname.symm.trans hname')
    obtain ⟨hvalue, hworld⟩ := hR.output _ k symbol hk _ _ hw.world
    rw [← hvalue] at hshown'
    obtain rfl := Option.some_inj.1 (hshown.symm.trans hshown')
    refine ⟨hw.visited, ?_, hworld⟩
    rw [hw.entries]

theorem actions_alike (hR : p.environment.ShowsAlike R)
    (hwalk : ∀ i, KeepAlike R (walkOption i) (walkOption' i)) (as : List Action) :
    KeepAlike R (as.forM (action p walkOption depth)) (as.forM (action p walkOption' depth)) := by
  induction as with
  | nil =>
    intro w w' w₁ w₁' hw h h'
    obtain ⟨-, rfl⟩ := pure_eq_some.1 h
    obtain ⟨-, rfl⟩ := pure_eq_some.1 h'
    exact hw
  | cons a as ih =>
    intro w w' w₂ w₂' hw h h'
    obtain ⟨_, w₁, h₁, h⟩ := bind_eq_some.1 h
    obtain ⟨_, w₁', h₁', h'⟩ := bind_eq_some.1 h'
    exact ih (action_alike hR hwalk a hw h₁ h₁') h h'

variable {options options' : List Activation} {cycle : Nat}

theorem option_alike (hR : p.environment.ShowsAlike R)
    (ho : ∀ (i : Nat) (a b : Activation), options[i]? = some a → options'[i]? = some b →
      a.ShowsAlike cycle b) (n depth i : Nat) :
    KeepAlike R (option p options cycle n depth i) (option p options' cycle n depth i) := by
  induction n generalizing depth i with
  | zero =>
    intro w w' w₁ w₁' _ h
    cases h
  | succ n ih =>
    intro w w' w₁ w₁' hw h h'
    obtain ⟨a, ha, hcases⟩ := option_cases h
    obtain ⟨b, hb, hcases'⟩ := option_cases h'
    have hab := ho i a b ha hb
    rw [← hw.visited, ← hab.ranIn] at hcases'
    rcases hcases with ⟨hskip, rfl⟩ | ⟨hi, hr, henters⟩ <;>
      rcases hcases' with ⟨hskip', rfl⟩ | ⟨hi', hr', henters'⟩
    · exact hw
    · exact absurd hskip (by simp [hi', hr'])
    · exact absurd hskip' (by simp [hi, hr])
    · obtain ⟨_, node, name, state, stateName, time, parameters, hn, hnode, hname, hstate,
        hstateName, htime, hparameters, hactions⟩ := henters
      obtain ⟨_, node', name', state', stateName', time', parameters', hn', hnode', hname',
        hstate', hstateName', htime', hparameters', hactions'⟩ := henters'
      obtain rfl := Nat.succ.inj hn
      obtain rfl := Nat.succ.inj hn'
      obtain rfl := Option.some_inj.1 (hnode.symm.trans hnode')
      obtain rfl := Option.some_inj.1 (hname.symm.trans hname')
      rw [← hab.stateTime hr] at htime'
      rw [← hab.executed hr] at hstate' hstateName'
      rw [← hab.parameters hr] at hparameters'
      obtain rfl := Option.some_inj.1 (hstate.symm.trans hstate')
      obtain rfl := Option.some_inj.1 (hstateName.symm.trans hstateName')
      obtain rfl := Option.some_inj.1 (htime.symm.trans htime')
      obtain rfl := Option.some_inj.1 (hparameters.symm.trans hparameters')
      refine actions_alike hR (fun i => ih (depth + 1) i) state.actions ?_ hactions hactions'
      refine ⟨?_, ?_, hw.world⟩
      · rw [hw.visited]
      · rw [hw.entries, hab.elapsed hr]

end Walk

/-- **Snapshots that agree about what they read are the same.** -/
theorem activeBehaviors?_alike {p : Program σ} {R : World σ → World σ → Prop}
    (hR : p.environment.ShowsAlike R) {options options' : List Activation} {cycle root : Nat}
    (ho : ∀ (i : Nat) (a b : Activation), options[i]? = some a → options'[i]? = some b →
      a.ShowsAlike cycle b) {w w' w₁ w₁' : World σ} {entries entries' : List ActiveBehavior}
    (hw : R w w') (h : activeBehaviors? p options cycle root w = some (entries, w₁))
    (h' : activeBehaviors? p options' cycle root w' = some (entries', w₁')) :
    entries = entries' ∧ R w₁ w₁' := by
  obtain ⟨⟨_, walk⟩, hwalk, hresult⟩ := Option.bind_eq_some_iff.1 h
  obtain ⟨⟨_, walk'⟩, hwalk', hresult'⟩ := Option.bind_eq_some_iff.1 h'
  obtain ⟨rfl, rfl⟩ := Prod.mk.inj (Option.some_inj.1 hresult)
  obtain ⟨rfl, rfl⟩ := Prod.mk.inj (Option.some_inj.1 hresult')
  have hstart : Walk.Alike R ⟨[], [], w⟩ ⟨[], [], w'⟩ := ⟨rfl, rfl, hw⟩
  have halike := Walk.option_alike hR ho _ _ _ hstart hwalk hwalk'
  exact ⟨halike.entries, halike.world⟩

/-- What reading an output symbol preserves, a snapshot preserves. -/
theorem activeBehaviors?_preserves {p : Program σ} {P : World σ → Prop}
    (hP : ∀ (d : Domain) (k : Nat) (symbol : OutputSymbol σ d),
      (p.environment.symbols.outputs.get d).at? k = some symbol → ∀ w, P w →
      P (symbol.binding.read w).2) {options : List Activation} {cycle root : Nat}
    {w w₁ : World σ} {entries : List ActiveBehavior} (hw : P w)
    (h : activeBehaviors? p options cycle root w = some (entries, w₁)) : P w₁ := by
  have hR : p.environment.ShowsAlike fun w w' => w = w' ∧ P w :=
    { output := by
        rintro d k symbol hk w _ ⟨rfl, hw⟩
        exact ⟨rfl, rfl, hP d k symbol hk w hw⟩
      slot := by
        rintro _ _ _ _ _ _ _ w _ ⟨rfl, -⟩
        rfl }
  have ho : ∀ (i : Nat) (a b : Activation), options[i]? = some a → options[i]? = some b →
      a.ShowsAlike cycle b := by
    intro i a b ha hb
    obtain rfl := Option.some_inj.1 (ha.symm.trans hb)
    exact .refl a
  exact (activeBehaviors?_alike hR ho ⟨rfl, hw⟩ h h).2.2

end BehaviorEngine
