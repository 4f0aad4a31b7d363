import BehaviorEngine.Proofs.Cycle.Completion
import BehaviorEngine.Proofs.Cycle.Places

/-!
Parameters of options in a cycle. An option that does not run as the root runs because an action has
activated it, with the arguments of that action as parameters. From then on it has run, so until the
cycle ends nothing binds its parameters again, and all that it evaluates reads these arguments.
-/

namespace BehaviorEngine

variable {σ : Type}

/-! ### Binding parameters -/

/-- The values of parameters are those of some arguments. -/
def Argument.Fill (arguments : List Argument) (values : PerDomain fun d => List d.Value) : Prop :=
  ∀ (d : Domain) (i : Nat) (x : d.Value), (values.get d)[i]? = some x ↔ ⟨d, i, x⟩ ∈ arguments

namespace Activation

variable {a b : Activation} {c : Cycle} {k : Nat} {d : Domain} {i : Nat}

@[simp] theorem start_parameters : (a.start c k).parameters = a.parameters := by
  unfold start switch
  split <;> rfl

@[simp] theorem finish_parameters : (a.finish c k).parameters = a.parameters := by
  unfold finish switch
  split <;> rfl

/-- A parameter has the value that is bound to it. -/
theorem bind?_getElem? {x : Argument} (h : a.bind? x = some b) :
    (b.parameters.get x.domain)[x.index]? = some x.value := by
  unfold bind? at h
  split at h
  · next hi =>
    cases h
    simp [hi]
  · cases h

/-- Other parameters keep their values. -/
theorem bind?_getElem?_of_ne {x : Argument} (h : a.bind? x = some b) (hne : x.key ≠ (d, i)) :
    (b.parameters.get d)[i]? = (a.parameters.get d)[i]? := by
  unfold bind? at h
  split at h
  · cases h
    by_cases hd : d = x.domain
    · subst hd
      have hi : x.index ≠ i := fun e => hne (e ▸ rfl)
      simp [hi]
    · rw [PerDomain.get_modify_of_ne _ _ hd]
  · cases h

theorem foldlM_bind?_getElem?_of_notMem {xs : List Argument} (h : xs.foldlM bind? a = some b)
    (hi : (d, i) ∉ xs.map Argument.key) :
    (b.parameters.get d)[i]? = (a.parameters.get d)[i]? := by
  induction xs generalizing a with
  | nil =>
    cases h
    rfl
  | cons x xs ih =>
    obtain ⟨a', hx, h⟩ := Option.bind_eq_some_iff.1 (List.foldlM_cons.symm.trans h)
    rw [List.map_cons, List.mem_cons, not_or] at hi
    exact (ih h hi.2).trans (bind?_getElem?_of_ne hx (Ne.symm hi.1))

/-- If no parameter is bound twice, each one has the value that is bound to it. -/
theorem foldlM_bind?_getElem? {xs : List Argument} (h : xs.foldlM bind? a = some b)
    (hn : (xs.map Argument.key).Nodup) {x : Argument} (hx : x ∈ xs) :
    (b.parameters.get x.domain)[x.index]? = some x.value := by
  induction xs generalizing a with
  | nil => cases hx
  | cons y ys ih =>
    obtain ⟨a', hy, hys⟩ := Option.bind_eq_some_iff.1 (List.foldlM_cons.symm.trans h)
    rw [List.map_cons, List.nodup_cons] at hn
    rcases List.mem_cons.1 hx with rfl | hx
    · exact (foldlM_bind?_getElem?_of_notMem hys hn.1).trans (bind?_getElem? hy)
    · exact ih hys hn.2 hx

/-- **Arguments that determine the parameters of an option are the values of these.** -/
theorem fill {p : Parameters Unit} {xs : List Argument} (hx : p.BoundBy xs)
    (h : xs.foldlM bind? a = some b) (hl : ∀ d, (b.parameters.get d).length = p.sizes d) :
    Argument.Fill xs b.parameters := by
  intro d i x
  refine ⟨fun hget => ?_, fun hmem => foldlM_bind?_getElem? h hx.nodup hmem⟩
  have hi : i < p.sizes d := hl d ▸ (List.getElem?_eq_some_iff.1 hget).1
  obtain ⟨y, hy⟩ := hx.exists_mem hi
  have := foldlM_bind?_getElem? h hx.nodup hy
  obtain rfl := Option.some_inj.1 (hget.symm.trans this)
  exact hy

end Activation

/-- What a reference to a parameter is worth, where the values of parameters are those of some
arguments. -/
theorem Argument.Fill.value_iff {arguments : List Argument} {s : Surroundings σ}
    (h : Argument.Fill arguments s.parameters) {d : Domain} {t : d.Typing} {i : Nat} {path : Path}
    {st : Store σ} {x : d.Value} :
    (Expr.parameter t i).value s path st = some (x, st) ↔ ⟨d, i, x⟩ ∈ arguments := by
  rw [← h d i x]
  exact Partial.lift_eq_some.trans (and_iff_left rfl)

/-! ### Parameters in a trace -/

section Traces

variable {p : Program σ} {c : Cycle} {t : Task} {depth : Nat} {m m' : Machine σ}
  {trace : List (Moment σ)} {o : Nat}

/-- An option has run and has some values of its parameters. -/
def Machine.RanWith (m : Machine σ) (c : Cycle) (o : Nat)
    (values : PerDomain fun d => List d.Value) : Prop :=
  ∃ a, m.options[o]? = some a ∧ a.ranIn c.number = true ∧ a.parameters = values

theorem Machine.RanWith.runs {values : PerDomain fun d => List d.Value}
    {events : List Event} (h : m.RanWith c o values) (hr : Runs p c t depth m events m') :
    m'.RanWith c o values := by
  obtain ⟨a, ha, hran, hv⟩ := h
  exact ⟨a, hr.untouched ha hran, hran, hv⟩

/-- The end of a run leaves parameters as they are. -/
theorem Machine.RanWith.finish {values : PerDomain fun d => List d.Value} {i next : Nat}
    {store : Store σ} (h : m.RanWith c o values) :
    ({ m with store }.modifyOption i fun a => a.finish c next).RanWith c o values := by
  obtain ⟨a, ha, hran, hv⟩ := h
  by_cases hi : i = o
  · subst hi
    exact ⟨_, Machine.modifyOption_getElem? (m := { m with store }) ha, by simpa using hran,
      by simpa using hv⟩
  · exact ⟨a, (Machine.modifyOption_getElem?_of_ne (m := { m with store }) hi).trans ha, hran, hv⟩

/-- What is evaluated reads the parameters of an option that has run. -/
theorem Machine.RanWith.of_surroundings {state : Graph.State} {s : Surroundings σ}
    (hran : m.Ran c o) (hsur : Run.surroundings p c o state m = some (s, m)) :
    m.RanWith c o s.parameters := by
  obtain ⟨a, ha, hr⟩ := hran
  obtain ⟨-, b, _, hb, -, rfl⟩ := Run.surroundings_eq_some.1 hsur
  obtain rfl := Option.some_inj.1 (ha.symm.trans hb)
  exact ⟨a, ha, hr, rfl⟩

/-- **What an option evaluates reads the parameters that it keeps.** -/
theorem Traces.evaluates_parameters (h : Traces p c t depth m trace m')
    (ho : ∀ i ∈ t.owner?, m.Ran c i) {path : Path} {s : Surroundings σ} {m₁ : Machine σ}
    (hx : .evaluates o path s m₁ ∈ trace) : m'.RanWith c o s.parameters := by
  induction h with
  | again | skipOption | nil => cases hx
  | skipBehavior => simp at hx
  | @enter i _ _ _ _ m _ a _ node _ _ _ _ ha _ _ hb _ _ _ hacts hsur _ _ ih =>
    simp only [List.mem_cons, List.mem_append, List.not_mem_nil, or_false, reduceCtorEq,
      false_or, Moment.evaluates.injEq] at hx
    refine Machine.RanWith.finish ?_
    rcases hx with hx | ⟨rfl, rfl, rfl, rfl⟩
    · refine ih ?_ hx
      rintro _ ⟨⟩
      exact Machine.ran_start ha
    · exact .of_surroundings (hacts.runs.ran_mono (Machine.ran_start ha)) hsur
  | activate ha hr hsur hargs hb h ih =>
    rcases List.mem_cons.1 hx with hx | hx
    · cases hx
      exact (Machine.RanWith.of_surroundings (ho o rfl) hsur).runs
        (.activate ha hr hsur hargs hb h.runs)
    · exact ih nofun hx
  | behave _ _ _ hsur _ | assign hsur _ _ =>
    simp only [List.mem_cons, List.not_mem_nil, or_false, reduceCtorEq, false_or] at hx
    cases hx
    have hwith := Machine.RanWith.of_surroundings (ho o rfl) hsur
    exact hwith
  | cons h hs ih ihs =>
    rcases List.mem_append.1 hx with hx | hx
    · exact (ih ho hx).runs hs.runs
    · exact ihs (fun i hi => h.runs.ran_mono (ho i hi)) hx

/-! ### Activations -/

/-- The arguments of an activation determine the parameters of its option. -/
theorem Program.Complete.activation_boundBy (hc : p.Complete) (hf : p.Fits) {site : Path}
    {bindings : List Binding} (ha : p.graph.action? site = some (.activate o bindings))
    {s : Surroundings σ} {arguments : List Argument} {st st' : Store σ}
    (h : Run.argumentsAt s site bindings st = some (arguments, st')) :
    ∃ node, p.graph.options.at? o = some node ∧ node.parameters.BoundBy arguments := by
  obtain ⟨node, hn, honce⟩ := hc.of_action? ha
  obtain ⟨own, node', hn', hfits⟩ := hf.of_action? ha
  obtain rfl := Option.some_inj.1 (hn.symm.trans hn')
  obtain ⟨st₁, hvalues, -⟩ := Run.values_of_argumentsAt h
  exact ⟨node, hn, honce.boundBy hfits (Binding.values_keys hvalues)⟩

/-- An action at a path activates an option that has not run, with some arguments, and leaves it
with some values of its parameters. -/
structure Machine.Activates (p : Program σ) (c : Cycle) (m : Machine σ) (o : Nat) (site : Path)
    (s : Surroundings σ) (arguments : List Argument) (values : PerDomain fun d => List d.Value) :
    Prop where
  not_ran : ¬ m.Ran c o
  bindings : ∃ bindings, p.graph.action? site = some (.activate o bindings) ∧
    ∃ store, Run.argumentsAt s site bindings m.store = some (arguments, store)
  bound : ∃ a b, m.options[o]? = some a ∧ arguments.foldlM Activation.bind? a = some b ∧
    b.parameters = values

/-- The path of the state in which a part of a cycle works. -/
def Task.place? : Task → Option Path
  | .option _ => none
  | .action _ _ site _ => some site.tail
  | .actions _ _ path _ _ => some path

/-- **How an option comes to run**: it is the one that is asked for, with the parameters that it
has, or right before it runs an action of a state that runs activates it. -/
theorem Traces.activated (h : Traces p c t depth m trace m') (hp : t.Placed p.graph)
    {n k time stateTime : Nat} (hx : .enters n o k time stateTime ∈ trace) :
    (t = .option o ∧ (∃ after, trace = .enters n o k time stateTime :: after) ∧
      ∃ a, m.options[o]? = some a ∧ m'.RanWith c o a.parameters) ∨
    ∃ before j k' i s m₁ after arguments values,
      trace = before ++ .evaluates i [j, k', i] s m₁ :: .enters n o k time stateTime :: after ∧
      m₁.Activates p c o [j, k', i] s arguments values ∧ m'.RanWith c o values ∧
      (t.place? = some [k', i] ∨
        ∃ n' time' stateTime', .enters n' i k' time' stateTime' ∈ before) := by
  induction h generalizing n k time stateTime with
  | again | skipOption | nil => cases hx
  | skipBehavior | behave | assign => simp at hx
  | @enter i _ _ _ _ m m₁ a b node _ trace _ store ha _ hn hb _ hs _ hacts _ _ _ ih =>
    simp only [List.mem_cons, List.mem_append, List.not_mem_nil, or_false, reduceCtorEq,
      Moment.enters.injEq] at hx
    rcases hx with ⟨rfl, rfl, rfl, rfl, rfl⟩ | hx
    · have hend := hacts.runs.keeps_start ha
      exact .inl ⟨rfl, ⟨_, rfl⟩, a, ha,
        Machine.RanWith.finish ⟨_, hend, Activation.start_ranIn, Activation.start_parameters⟩⟩
    · right
      rcases ih (.enter hn hs) hx with ⟨h, -⟩ | ⟨before, j, k', i', s, m₂, after, arguments, values,
        rfl, hacti, hwith, hplace⟩
      · cases h
      · refine ⟨_ :: before, j, k', i', s, m₂, _, arguments, values,
          by rw [List.append_assoc]; rfl, hacti, hwith.finish, .inr ?_⟩
        rcases hplace with hplace | ⟨n', time', stateTime', hmem⟩
        · cases hplace
          exact ⟨_, _, _, List.mem_cons_self ..⟩
        · exact ⟨n', time', stateTime', List.mem_cons_of_mem _ hmem⟩
  | @activate i _ target _ site bindings m _ a bound s arguments store trace ha hr _ hargs hb _
      ih =>
    right
    have hx : .enters n o k time stateTime ∈ trace := by simpa using hx
    rcases ih trivial hx with ⟨htarget, ⟨after, rfl⟩, a', ha', hwith⟩ | ⟨before, j, k', i', s', m₂,
      after, arguments', values, rfl, hacti, hwith, hplace⟩
    · cases htarget
      obtain rfl := Option.some_inj.1
        ((Machine.modifyOption_getElem? (m := { m with store }) ha).symm.trans ha')
      obtain ⟨j, k', rfl, -⟩ := id hp
      refine ⟨[], j, k', i, s, m, after, arguments, _, rfl,
        ⟨Machine.not_ran ha hr, ⟨bindings, hp.action?, store, hargs⟩, a, _, ha, hb, rfl⟩, hwith,
        .inl rfl⟩
    · refine ⟨_ :: before, j, k', i', s', m₂, after, arguments', values, rfl, hacti, hwith, .inr ?_⟩
      obtain ⟨n', time', stateTime', hmem⟩ := hplace.resolve_left nofun
      exact ⟨n', time', stateTime', List.mem_cons_of_mem _ hmem⟩
  | @cons _ _ _ _ _ _ _ _ _ _ trace trace' h hs ih ihs =>
    right
    rcases List.mem_append.1 hx with hx | hx
    · rcases ih hp.head hx with ⟨h, -⟩ | ⟨before, j, k', i', s, m₂, after, arguments, values,
        rfl, hacti, hwith, hplace⟩
      · cases h
      · exact ⟨before, j, k', i', s, m₂, after ++ trace', arguments, values, by simp, hacti,
          hwith.runs hs.runs, hplace⟩
    · rcases ihs hp.tail hx with ⟨h, -⟩ | ⟨before, j, k', i', s, m₂, after, arguments, values,
        rfl, hacti, hwith, hplace⟩
      · cases h
      · refine ⟨trace ++ before, j, k', i', s, m₂, after, arguments, values, by simp, hacti, hwith,
          hplace.imp_right ?_⟩
        rintro ⟨n', time', stateTime', hmem⟩
        exact ⟨n', time', stateTime', List.mem_append_right _ hmem⟩

end Traces

end BehaviorEngine
