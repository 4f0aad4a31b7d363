import BehaviorEngine.Proofs.Cycle.Parameters

/-!
Moments inside a cycle. A trace tells how a cycle begins and ends; this module stops it at a moment
at which something is evaluated. What has run by then is what has been entered, options that have
not run are as they were before the cycle, and options that have finished their run rest in the
state that they selected (`Proceeds`).

Main statement: `Traces.evaluates`, by induction on the trace. Where the decision tree of a state is
evaluated, all options that the state activates have run.
-/

namespace BehaviorEngine

variable {σ : Type}

/-! ### Up to a moment -/

/-- A trace enters an option. -/
def Enters (trace : List (Moment σ)) (i : Nat) : Prop :=
  ∃ depth k time stateTime, .enters depth i k time stateTime ∈ trace

theorem enters_append {xs ys : List (Moment σ)} {i : Nat} :
    Enters (xs ++ ys) i ↔ Enters xs i ∨ Enters ys i := by
  unfold Enters
  constructor
  · rintro ⟨depth, k, time, stateTime, hx⟩
    rcases List.mem_append.1 hx with hx | hx
    · exact .inl ⟨depth, k, time, stateTime, hx⟩
    · exact .inr ⟨depth, k, time, stateTime, hx⟩
  · rintro (⟨depth, k, time, stateTime, hx⟩ | ⟨depth, k, time, stateTime, hx⟩)
    · exact ⟨depth, k, time, stateTime, List.mem_append_left _ hx⟩
    · exact ⟨depth, k, time, stateTime, List.mem_append_right _ hx⟩

/-- **How far a cycle has come**: the moments of `trace` have taken the machine `m` to `m₁`. -/
structure Proceeds (c : Cycle) (m : Machine σ) (trace : List (Moment σ)) (m₁ : Machine σ) :
    Prop where
  ran_iff : ∀ j, m₁.Ran c j ↔ m.Ran c j ∨ Enters trace j
  untouched : ∀ (j : Nat) (b : Activation), m.options[j]? = some b → b.ranIn c.number = true →
    m₁.options[j]? = some b
  unran : ∀ (j : Nat) (b : Activation), m₁.options[j]? = some b → b.ranIn c.number = false →
    m.options[j]? = some b
  selected : ∀ j k, .selects j k ∈ trace →
    ∃ b, m₁.options[j]? = some b ∧ b.ranIn c.number = true ∧ b.active = k

namespace Proceeds

variable {p : Program σ} {c : Cycle} {m m₁ m₂ : Machine σ} {xs ys : List (Moment σ)} {i : Nat}
  {a bound : Activation}

theorem refl (c : Cycle) (m : Machine σ) : Proceeds c m [] m where
  ran_iff := fun j => by simp [Enters]
  untouched := fun _ _ hb _ => hb
  unran := fun _ _ hb _ => hb
  selected := nofun

theorem trans (h : Proceeds c m xs m₁) (h' : Proceeds c m₁ ys m₂) :
    Proceeds c m (xs ++ ys) m₂ where
  ran_iff := fun j => by rw [h'.ran_iff, h.ran_iff, enters_append, or_assoc]
  untouched := fun j b hb hr => h'.untouched j b (h.untouched j b hb hr) hr
  unran := fun j b hb hr => h.unran j b (h'.unran j b hb hr) hr
  selected := fun j k hx => by
    rcases List.mem_append.1 hx with hx | hx
    · obtain ⟨b, hb, hr, hk⟩ := h.selected j k hx
      exact ⟨b, h'.untouched j b hb hr, hr, hk⟩
    · exact h'.selected j k hx

/-- A basic behavior that is asked to run has not run yet. -/
theorem request (c : Cycle) (m : Machine σ) (depth target : Nat) :
    Proceeds c m [.requests depth target] m where
  ran_iff := fun j => by simp [Enters]
  untouched := fun _ _ hb _ => hb
  unran := fun _ _ hb _ => hb
  selected := fun _ _ hx => by cases List.mem_singleton.1 hx

/-- An option that starts to run has been entered. -/
theorem start (ha : m.options[i]? = some a) (hr : a.ranIn c.number = false)
    (depth k time stateTime initial : Nat) :
    Proceeds c m [.enters depth i k time stateTime]
      (m.modifyOption i fun a => a.start c initial) := by
  have hstart := Machine.modifyOption_getElem? (f := fun a => a.start c initial) ha
  refine ⟨fun j => ?_, fun j b hb hrb => ?_, fun j b hb hrb => ?_, fun j k hx => ?_⟩
  · by_cases hij : i = j
    · subst hij
      exact iff_of_true (Machine.ran_start ha)
        (.inr ⟨depth, k, time, stateTime, List.mem_singleton_self _⟩)
    · rw [Machine.ran_modifyOption_of_ne hij]
      have hnone : ¬ Enters [Moment.enters (σ := σ) depth i k time stateTime] j := by
        rintro ⟨_, _, _, _, hx⟩
        cases List.mem_singleton.1 hx
        exact hij rfl
      exact (or_iff_left hnone).symm
  · have hij : i ≠ j := by
      rintro rfl
      cases ha.symm.trans hb
      rw [hr] at hrb
      cases hrb
    rw [Machine.modifyOption_getElem?_of_ne hij, hb]
  · have hij : i ≠ j := by
      rintro rfl
      cases hstart.symm.trans hb
      rw [Activation.start_ranIn] at hrb
      cases hrb
    rw [← hb, Machine.modifyOption_getElem?_of_ne hij]
  · cases List.mem_singleton.1 hx

/-- The arguments of an activation change nothing but the option that runs next. -/
theorem activate {store : Store σ} {arguments : List Argument} (ha : m.options[i]? = some a)
    (hb : arguments.foldlM Activation.bind? a = some bound)
    (h : Proceeds c ({ m with store }.modifyOption i fun _ => bound) ys m₁) (hran : m₁.Ran c i)
    (hr : a.ranIn c.number = false) (j : Nat) (path : Path) (s : Surroundings σ) :
    Proceeds c m (.evaluates j path s m :: ys) m₁ := by
  refine ⟨fun j' => ?_, fun j' b hb' hrb => ?_, fun j' b hb' hrb => ?_, fun j' k hx => ?_⟩
  · rw [h.ran_iff, Machine.ran_bind_iff ha hb]
    unfold Enters
    simp only [List.mem_cons, reduceCtorEq, false_or]
  · have hij : i ≠ j' := by
      rintro rfl
      cases ha.symm.trans hb'
      rw [hr] at hrb
      cases hrb
    refine h.untouched j' b ?_ hrb
    rw [Machine.modifyOption_getElem?_of_ne (m := { m with store }) hij, hb']
  · have hij : i ≠ j' := by
      rintro rfl
      rw [Machine.ran_iff hb', hrb] at hran
      cases hran
    rw [← h.unran j' b hb' hrb, Machine.modifyOption_getElem?_of_ne (m := { m with store }) hij]
  · rcases List.mem_cons.1 hx with hx | hx
    · cases hx
    · exact h.selected j' k hx

end Proceeds

section Traces

variable {p : Program σ} {c : Cycle} {t : Task} {depth : Nat} {m m' : Machine σ}
  {trace : List (Moment σ)}

/-- A part of a cycle that has ended has come as far as its trace. -/
theorem Traces.proceeds (h : Traces p c t depth m trace m') (ho : ∀ i ∈ t.owner?, m.Ran c i) :
    Proceeds c m trace m' where
  ran_iff := fun j => by
    constructor
    · intro hj
      by_cases hm : m.Ran c j
      · exact .inl hm
      · exact .inr (h.enters_iff.2 ⟨hm, hj⟩)
    · rintro (hj | hj)
      · exact h.runs.ran_mono hj
      · exact (h.enters_iff.1 hj).2
  untouched := fun _ _ hb hr => h.runs.untouched hb hr
  unran := fun _ _ hb hr => h.runs.unran hb hr
  selected := fun j k hx => h.agrees ho _ hx j rfl

/-! ### What is evaluated -/

/-- **An option evaluates an action or its decision tree** at a path, in one of its states. At the
decision tree, all options that the state activates have run. -/
structure Machine.Evaluates (p : Program σ) (c : Cycle) (m : Machine σ) (i k : Nat) (path : Path)
    (s : Surroundings σ) (state : Graph.State) : Prop where
  state_eq : p.graph.state? i k = some state
  path_eq : ∃ n, path = [n, k, i]
  ran : m.Ran c i
  surroundings : Run.surroundings p c i state m = some (s, m)
  activated : path = [state.actions.length, k, i] → ∀ j ∈ state.activated, m.Ran c j

/-- An action stands in front of the decision tree of its state. -/
theorem Machine.Evaluates.of_action {i : Nat} {state : Graph.State} {site : Path} {a : Action}
    {s : Surroundings σ} (hp : (Task.action i state site a).Placed p.graph) (hran : m.Ran c i)
    (hsur : Run.surroundings p c i state m = some (s, m)) :
    ∃ k, site.tail = [k, i] ∧ m.Evaluates p c i k site s state := by
  obtain ⟨n, k, rfl, hs, ha⟩ := hp
  refine ⟨k, rfl, hs, ⟨n, rfl⟩, hran, hsur, fun hpath => ?_⟩
  obtain ⟨hn, -⟩ := List.getElem?_eq_some_iff.1 ha
  obtain ⟨rfl, -⟩ := List.cons.inj hpath
  exact absurd hn (Nat.lt_irrefl _)

/-- A member of two lists in a row belongs to the first or to the second one. -/
theorem append_eq_append_cons {α : Type} {x : α} {xs ys before after : List α}
    (h : xs ++ ys = before ++ x :: after) :
    (∃ after', xs = before ++ x :: after') ∨
      ∃ before', before = xs ++ before' ∧ ys = before' ++ x :: after := by
  rcases List.append_eq_append_iff.1 h with ⟨before', hbefore, hys⟩ | ⟨rest, hxs, hrest⟩
  · exact .inr ⟨before', hbefore, hys⟩
  · cases rest with
    | nil => exact .inr ⟨[], by simpa using hxs.symm, by simpa using hrest.symm⟩
    | cons y rest =>
      obtain ⟨rfl, -⟩ := List.cons.inj hrest
      exact .inl ⟨rest, hxs⟩

theorem eq_of_singleton_eq {α : Type} {x y : α} {before after : List α}
    (h : [y] = before ++ x :: after) : y = x := by
  have hmem : x ∈ [y] := by rw [h]; exact List.mem_append_right _ (List.mem_cons_self ..)
  exact (List.mem_singleton.1 hmem).symm

/-- **A cycle up to a moment at which something is evaluated.** Positions are in range, the cycle
has come as far as the trace before the moment tells, and what is evaluated belongs to a state in
which the option runs. -/
theorem Traces.evaluates (h : Traces p c t depth m trace m') (hp : t.Placed p.graph)
    (ho : ∀ i ∈ t.owner?, m.Ran c i) (hm : m.Fits p) {before after : List (Moment σ)} {i : Nat}
    {path : Path} {s : Surroundings σ} {m₁ : Machine σ}
    (hx : trace = before ++ .evaluates i path s m₁ :: after) :
    m₁.Fits p ∧ Proceeds c m before m₁ ∧ (∀ o, t = .option o → m₁.Ran c o) ∧
      ∃ k state, m₁.Evaluates p c i k path s state ∧
        (t.place? = some [k, i] ∨
          ∃ depth time stateTime, .enters depth i k time stateTime ∈ before) := by
  induction h generalizing before after with
  | again | skipOption | nil => simp at hx
  | skipBehavior => cases eq_of_singleton_eq hx
  | @enter o depth k next time m m₂ a b node state trace s' store ha hr hn hb hk hs ht hacts hsur
      hsel hnext ih =>
    subst hb hk
    have hstart := Proceeds.start ha hr depth (a.start c node.initial).executed
      (a.start c node.initial).elapsed time node.initial
    have hran : (m.modifyOption o fun a => a.start c node.initial).Ran c o := Machine.ran_start ha
    have howner : ∀ j ∈ (Task.actions o state [(a.start c node.initial).executed, o] 0
        state.actions).owner?, (m.modifyOption o fun a => a.start c node.initial).Ran c j := by
      rintro _ ⟨⟩
      exact hran
    have hfits := hm.start ha hn hs
    rcases List.cons_eq_append_iff.1 hx with ⟨-, h⟩ | ⟨before, rfl, h⟩
    · cases h
    rcases append_eq_append_cons h with ⟨after', hbefore⟩ | ⟨before, rfl, hend⟩
    · -- An action of the state evaluates something.
      obtain ⟨hfits₁, hproceeds, -, k', state', hev, hplace⟩ :=
        ih (.enter hn hs) howner hfits hbefore
      refine ⟨hfits₁, hstart.trans hproceeds, ?_, k', state', hev, .inr ?_⟩
      · rintro _ ⟨⟩
        exact (hproceeds.ran_iff _).2 (.inl hran)
      · rcases hplace with hplace | ⟨depth', time', stateTime', hmem⟩
        · cases hplace
          exact ⟨_, _, _, List.mem_cons_self ..⟩
        · exact ⟨depth', time', stateTime', List.mem_cons_of_mem _ hmem⟩
    · -- The state evaluates its decision tree, after all of its actions.
      have hproceeds := hacts.proceeds howner
      have hran₂ := (hproceeds.ran_iff o).2 (.inl hran)
      rcases List.cons_eq_append_iff.1 hend with ⟨rfl, hlast⟩ | ⟨before, rfl, hlast⟩
      · cases hlast
        rw [List.append_nil]
        refine ⟨hacts.runs.fits hfits, hstart.trans hproceeds, ?_, _, state,
          ⟨Graph.state?_eq_some.2 ⟨node, hn, hs⟩, ⟨_, rfl⟩, hran₂, hsur, fun _ => ?_⟩,
          .inr ⟨_, _, _, List.mem_cons_self ..⟩⟩
        · rintro _ ⟨⟩
          exact hran₂
        · exact hacts.runs.targets_ran
      · cases eq_of_singleton_eq hlast
  | @activate o depth target state site bindings m m₂ a bound s' arguments store trace ha hr hsur
      hargs hb h ih =>
    rcases List.cons_eq_append_iff.1 hx with ⟨rfl, h⟩ | ⟨before, rfl, h⟩
    · cases h
      obtain ⟨k, hk, hev⟩ := Machine.Evaluates.of_action hp (ho _ rfl) hsur
      exact ⟨hm, .refl c _, nofun, k, state, hev, .inl (congrArg some hk)⟩
    · obtain ⟨hfits, hproceeds, hran, k, state', hev, hplace⟩ :=
        ih trivial nofun (hm.bind ha hb) h
      refine ⟨hfits, hproceeds.activate ha hb (hran target rfl) hr _ _ _, nofun, k, state', hev,
        .inr ?_⟩
      obtain ⟨depth', time', stateTime', hmem⟩ := hplace.resolve_left nofun
      exact ⟨depth', time', stateTime', List.mem_cons_of_mem _ hmem⟩
  | @behave o depth target state site bindings m last behavior s' arguments store hl hr hb hsur
      hargs =>
    rcases List.cons_eq_append_iff.1 hx with ⟨-, h⟩ | ⟨before, rfl, h⟩
    · cases h
    rcases List.cons_eq_append_iff.1 h with ⟨rfl, htail⟩ | ⟨before, rfl, htail⟩
    · cases htail
      obtain ⟨k, hk, hev⟩ := Machine.Evaluates.of_action hp (ho _ rfl) hsur
      exact ⟨hm, .request c _ depth target, nofun, k, state, hev, .inl (congrArg some hk)⟩
    · cases eq_of_singleton_eq htail
  | @assign o depth n d expression state site m s' x store symbol hsur hval hn =>
    rcases List.cons_eq_append_iff.1 hx with ⟨rfl, h⟩ | ⟨before, rfl, h⟩
    · cases h
      obtain ⟨k, hk, hev⟩ := Machine.Evaluates.of_action hp (ho _ rfl) hsur
      exact ⟨hm, .refl c _, nofun, k, state, hev, .inl (congrArg some hk)⟩
    · cases eq_of_singleton_eq h
  | @cons o depth n state path a as m m₂ m' trace trace' h hs ih ihs =>
    rcases append_eq_append_cons hx with ⟨after', hbefore⟩ | ⟨before', rfl, hlast⟩
    · obtain ⟨hfits, hproceeds, -, hev⟩ := ih hp.head ho hm hbefore
      exact ⟨hfits, hproceeds, nofun, hev⟩
    · have hproceeds := h.proceeds ho
      obtain ⟨hfits, hfar, -, k, state', hev, hplace⟩ := ihs hp.tail
        (fun j hj => h.runs.ran_mono (ho j hj)) (h.runs.fits hm) hlast
      refine ⟨hfits, hproceeds.trans hfar, nofun, k, state', hev, hplace.imp_right ?_⟩
      rintro ⟨depth', time', stateTime', hmem⟩
      exact ⟨depth', time', stateTime', List.mem_append_right _ hmem⟩

end Traces

end BehaviorEngine
