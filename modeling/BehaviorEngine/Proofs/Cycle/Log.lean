import BehaviorEngine.Proofs.Cycle.Outputs
import BehaviorEngine.Proofs.Sites.Visits

/-!
The log of a cycle. Each moment at which an option evaluates an action or its decision tree has the
log of that evaluation, and the cycle has all of them in their order. As options and basic behaviors
run at most once, so do all call sites: what an option evaluates lies below its own path, and it is
evaluated only while the option runs.
-/

namespace BehaviorEngine

open CallSite

variable {σ : Type}

/-! ### Logs of moments -/

/-- The decision tree that a path leads to. -/
def Graph.decision? (g : Graph) : Path → Option Statement
  | [n, k, i] => (g.state? i k).bind fun state =>
    if n = state.actions.length then some state.decision else none
  | _ => none

theorem Graph.decision?_eq_some {g : Graph} {path : Path} {t : Statement}
    (h : g.decision? path = some t) :
    ∃ i k state, g.state? i k = some state ∧ state.decision = t := by
  unfold Graph.decision? at h
  split at h
  · obtain ⟨state, hs, h⟩ := Option.bind_eq_some_iff.1 h
    obtain ⟨-, ht⟩ := Option.ite_none_right_eq_some.1 h
    exact ⟨_, _, state, hs, Option.some_inj.1 ht⟩
  · cases h

/-- Behind the actions of a state stands its decision tree. -/
theorem Graph.decision?_of_state? {g : Graph} {i k : Nat} {state : Graph.State}
    (hs : g.state? i k = some state) : g.action? [state.actions.length, k, i] = none ∧
      g.decision? [state.actions.length, k, i] = some state.decision := by
  simp [Graph.action?, Graph.decision?, hs]

/-- What the host is asked to do at a moment. -/
def Moment.log (p : Program σ) : Moment σ → List (HostEvent σ)
  | .evaluates _ path s m =>
    match p.graph.action? path with
    | some a => a.log p.environment s path m.store
    | none => (p.graph.decision? path).elim [] fun t => t.log p.environment s path m.store
  | _ => []

/-- **The log of a trace.** -/
def traceLog (p : Program σ) (trace : List (Moment σ)) : List (HostEvent σ) :=
  trace.flatMap (Moment.log p)

section Moments

variable {p : Program σ} {i : Nat} {path : Path} {s : Surroundings σ} {m : Machine σ}

theorem Moment.log_action {a : Action} (ha : p.graph.action? path = some a) :
    (Moment.evaluates i path s m).log p = a.log p.environment s path m.store := by
  rw [Moment.log, ha]

theorem Moment.log_decision {k : Nat} {state : Graph.State} (hs : p.graph.state? i k = some state) :
    (Moment.evaluates i [state.actions.length, k, i] s m).log p =
      state.decision.log p.environment s [state.actions.length, k, i] m.store := by
  obtain ⟨haction, hdecision⟩ := Graph.decision?_of_state? hs
  rw [Moment.log, haction, hdecision]
  rfl

theorem traceLog_append (xs ys : List (Moment σ)) :
    traceLog p (xs ++ ys) = traceLog p xs ++ traceLog p ys := List.flatMap_append

theorem traceLog_cons (x : Moment σ) (xs : List (Moment σ)) :
    traceLog p (x :: xs) = x.log p ++ traceLog p xs := List.flatMap_cons

/-- The log of the run of a basic behavior is that of its action. -/
theorem traceLog_behave {a : Action} (ha : p.graph.action? path = some a) {depth b : Nat} :
    traceLog p [.requests depth b, .evaluates i path s m, .behaves depth b] =
      a.log p.environment s path m.store :=
  (List.append_nil _).trans (Moment.log_action ha)

/-- The log of an assignment is that of its action. -/
theorem traceLog_assign {a : Action} (ha : p.graph.action? path = some a) {depth k : Nat}
    {d : Domain} {e : Expr d} {x : d.Value} :
    traceLog p [.evaluates i path s m, .assigns depth k e x] =
      a.log p.environment s path m.store :=
  (List.append_nil _).trans (Moment.log_action ha)

/-- The log of an option is that of its actions and its decision tree. -/
theorem traceLog_enter {depth k time stateTime next : Nat} {state : Graph.State}
    (hs : p.graph.state? i k = some state) (trace : List (Moment σ)) :
    traceLog p (.enters depth i k time stateTime ::
        (trace ++ [.evaluates i [state.actions.length, k, i] s m, .selects i next])) =
      traceLog p trace ++
        state.decision.log p.environment s [state.actions.length, k, i] m.store := by
  change traceLog p (trace ++ _) = _
  rw [traceLog_append, ← Moment.log_decision hs]
  exact congrArg (traceLog p trace ++ ·) (List.append_nil _)

end Moments

/-! ### Call sites within reach -/

/-- The paths of a part of a cycle that stands in a state. -/
def Task.Covers : Task → Path → Prop
  | .option _, _ => False
  | .action _ _ site _, path => site <:+ path
  | .actions _ _ place n as, path => ∃ j, n ≤ j ∧ j < n + as.length ∧ (j :: place) <:+ path

/-- The call sites within reach of a part of a cycle: its own, and those of the options that run. -/
def Task.Reach (g : Graph) (c : Cycle) (m m' : Machine σ) (t : Task) (call : CallSite) : Prop :=
  g.HasCall call ∧
    (t.Covers call.path ∨ ∃ j, [j] <:+ call.path ∧ ¬ m.Ran c j ∧ m'.Ran c j)

section Reach

variable {g : Graph} {c : Cycle} {m m₁ m' : Machine σ} {i j : Nat}

/-- What lies below two options is the same only if the options are. -/
theorem Path.option_eq {path : Path} (hi : [i] <:+ path) (hj : [j] <:+ path) : i = j := by
  by_contra hne
  exact Path.ne_of_suffix hne hi hj rfl

/-- What a part of a state covers lies below its option. -/
theorem Task.Covers.option {t : Task} (hp : t.Placed g) {path : Path} (h : t.Covers path) :
    ∃ i ∈ t.owner?, [i] <:+ path := by
  cases t with
  | option => exact h.elim
  | action i state site a =>
    obtain ⟨n, k, rfl, -⟩ := hp
    exact ⟨i, rfl, List.IsSuffix.trans ⟨[n, k], rfl⟩ h⟩
  | actions i state place n as =>
    obtain ⟨k, rfl, -⟩ := hp
    obtain ⟨j, -, -, hj⟩ := h
    exact ⟨i, rfl, List.IsSuffix.trans ⟨[j, k], rfl⟩ hj⟩

/-- **One part of a cycle and the next one reach different call sites**, if they cover different
paths: an option that runs in the first one does not run in the second one. -/
theorem Task.Reach.path_ne {t t' : Task} {x y : CallSite} (hx : t.Reach g c m m₁ x)
    (hy : t'.Reach g c m₁ m' y) (hp : t.Placed g) (hp' : t'.Placed g)
    (ho : ∀ i ∈ t.owner?, m.Ran c i) (ho' : ∀ i ∈ t'.owner?, m.Ran c i)
    (hmono : ∀ i, m.Ran c i → m₁.Ran c i)
    (hcovers : ∀ path, t.Covers path → ¬ t'.Covers path) : x.path ≠ y.path := by
  intro hpath
  obtain ⟨-, hx⟩ := hx
  obtain ⟨-, hy⟩ := hy
  rw [hpath] at hx
  rcases hx with hx | ⟨j, hj, hunran, hran⟩ <;> rcases hy with hy | ⟨j', hj', hunran', hran'⟩
  · exact hcovers _ hx hy
  · obtain ⟨i, hi, hsuffix⟩ := hx.option hp
    obtain rfl := Path.option_eq hsuffix hj'
    exact hunran' (hmono i (ho i hi))
  · obtain ⟨i, hi, hsuffix⟩ := hy.option hp'
    obtain rfl := Path.option_eq hsuffix hj
    exact hunran (ho' i hi)
  · obtain rfl := Path.option_eq hj hj'
    exact hunran' hran

/-- The call sites of an action that is run are within its reach. -/
theorem Task.reach_action {state : Graph.State} {site : Path} {a : Action}
    (hp : (Task.action i state site a).Placed g) {call : CallSite} (h : call ∈ a.calls site) :
    (Task.action i state site a).Reach g c m m' call := by
  refine ⟨?_, .inl ((a.sited site).below call h)⟩
  obtain ⟨n, k, rfl, hs, ha⟩ := hp
  exact ⟨i, k, state, hs, .inl ⟨n, a, ha, h⟩⟩

/-- An option that has run has run at the end of a run, too. -/
theorem Machine.Ran.finish {next : Nat} {store : Store σ} (h : m.Ran c j) :
    ({ m with store }.modifyOption i fun a => a.finish c next).Ran c j := by
  obtain ⟨a, ha, hr⟩ := h
  by_cases hij : i = j
  · subst hij
    exact ⟨_, Machine.modifyOption_getElem? (m := { m with store }) ha, by simpa using hr⟩
  · exact ⟨a, (Machine.modifyOption_getElem?_of_ne (m := { m with store }) hij).trans ha, hr⟩

/-- What runs below the actions of an option runs below the option: so do its own call sites, since
it has not run before. -/
theorem Task.Reach.enter {state : Graph.State} {place : Path} {n initial next : Nat}
    {as : List Action} {a : Activation} {store : Store σ} {call : CallSite}
    (hp : (Task.actions i state place n as).Placed g) (ha : m.options[i]? = some a)
    (hi : ¬ m.Ran c i) (hend : m₁.Ran c i)
    (hx : (Task.actions i state place n as).Reach g c
      (m.modifyOption i fun a => a.start c initial) m₁ call) :
    (Task.option i).Reach g c m ({ m₁ with store }.modifyOption i fun a => a.finish c next)
      call := by
  obtain ⟨hcall, hx | ⟨j, hj, hnot, hran⟩⟩ := hx
  · obtain ⟨_, ⟨⟩, hsuffix⟩ := hx.option hp
    exact ⟨hcall, .inr ⟨i, hsuffix, hi, hend.finish⟩⟩
  · have hij : i ≠ j := by
      rintro rfl
      exact hnot (Machine.ran_start ha)
    exact ⟨hcall, .inr ⟨j, hj, mt (Machine.ran_modifyOption_of_ne hij).2 hnot, hran.finish⟩⟩

/-- The call sites of the decision tree of an option that runs are within its reach. -/
theorem Task.reach_decision {k : Nat} {state : Graph.State} (hs : g.state? i k = some state)
    (hi : ¬ m.Ran c i) (hend : m'.Ran c i) {call : CallSite}
    (h : call ∈ state.decision.calls [state.actions.length, k, i]) :
    (Task.option i).Reach g c m m' call :=
  ⟨⟨i, k, state, hs, .inr h⟩, .inr ⟨i, List.IsSuffix.trans ⟨[_, _], rfl⟩
    ((state.decision.sited _).below call h), hi, hend⟩⟩

/-- Actions stand before the decision tree of their state, and their option has run before both. -/
theorem Task.Reach.path_ne_decision {k : Nat} {state : Graph.State} {x y : CallSite}
    (hx : (Task.actions i state [k, i] 0 state.actions).Reach g c m m₁ x) (hi : m.Ran c i)
    (hy : y ∈ state.decision.calls [state.actions.length, k, i]) : x.path ≠ y.path := by
  intro hpath
  have hbelow := (state.decision.sited _).below y hy
  obtain ⟨-, ⟨j, -, hj, hsuffix⟩ | ⟨j, hj, hnot, -⟩⟩ := hx
  · exact Path.ne_of_suffix (by omega) hsuffix hbelow hpath
  · rw [hpath] at hj
    obtain rfl := Path.option_eq hj (List.IsSuffix.trans ⟨[_, _], rfl⟩ hbelow)
    exact hnot hi

/-- What an activation makes run is within its reach. -/
theorem Task.Reach.activate {target : Nat} {state : Graph.State} {site : Path} {a : Action}
    {call : CallSite} (hx : (Task.option target).Reach g c m₁ m' call)
    (hran : ∀ j, m.Ran c j → m₁.Ran c j) : (Task.action i state site a).Reach g c m m' call := by
  obtain ⟨hcall, hx⟩ := hx
  obtain ⟨j, hj, hnot, hend⟩ := hx.resolve_left id
  exact ⟨hcall, .inr ⟨j, hj, mt (hran j) hnot, hend⟩⟩

section Actions

variable {state : Graph.State} {place : Path} {n : Nat} {a : Action} {as : List Action}
  {call : CallSite}

/-- The first action of a state is a part of its actions. -/
theorem Task.Reach.head (hx : (Task.action i state (n :: place) a).Reach g c m m₁ call)
    (hran : ∀ j, m₁.Ran c j → m'.Ran c j) :
    (Task.actions i state place n (a :: as)).Reach g c m m' call := by
  obtain ⟨hcall, hx | ⟨j, hj, hnot, hend⟩⟩ := hx
  · exact ⟨hcall, .inl ⟨n, Nat.le_refl n, by simp, hx⟩⟩
  · exact ⟨hcall, .inr ⟨j, hj, hnot, hran j hend⟩⟩

/-- The other actions of a state are a part of its actions. -/
theorem Task.Reach.tail (hx : (Task.actions i state place (n + 1) as).Reach g c m₁ m' call)
    (hran : ∀ j, m.Ran c j → m₁.Ran c j) :
    (Task.actions i state place n (a :: as)).Reach g c m m' call := by
  obtain ⟨hcall, ⟨j, hj, hlt, hsuffix⟩ | ⟨j, hj, hnot, hend⟩⟩ := hx
  · exact ⟨hcall, .inl ⟨j, by omega, by rw [List.length_cons]; omega, hsuffix⟩⟩
  · exact ⟨hcall, .inr ⟨j, hj, mt (hran j) hnot, hend⟩⟩

end Actions

end Reach

/-! ### What a cycle does -/

section Traces

variable {p : Program σ} {c : Cycle} {t : Task} {depth : Nat} {m m' : Machine σ}
  {trace : List (Moment σ)}

/-- **A part of a cycle does what its log tells**, and visits the call sites within its reach at
most once. -/
theorem Traces.logged (hf : p.Fits) (hc : p.Complete) (h : Traces p c t depth m trace m')
    (hp : t.Placed p.graph) (ho : ∀ i ∈ t.owner?, m.Ran c i) :
    Logged p.environment (t.Reach p.graph c m m') m.store (traceLog p trace) m'.store := by
  induction h with
  | again | skipOption | skipBehavior | nil => exact .nil _
  | @enter i depth k next time m m₁ a b node state trace s store ha hr hn hb hk hs ht hacts hsur
      hsel hnext ih =>
    subst hb hk
    have hunran := Machine.not_ran ha hr
    have hstart : (m.modifyOption i fun a => a.start c node.initial).Ran c i :=
      Machine.ran_start ha
    have hplaced := Task.Placed.enter hn hs
    have hstate := Graph.state?_eq_some.2 ⟨node, hn, hs⟩
    obtain ⟨node', -, hfits⟩ := hf.of_state? hstate
    have hactions := ih hplaced (by rintro _ ⟨⟩; exact hstart)
    have hdecision := Statement.logged (Run.surroundings_symbols hsur) _ _ hfits.decision hsel
    -- Entering the option and selecting a state ask nothing of the host.
    rw [traceLog_enter hstate]
    have hend := hacts.runs.ran_mono hstart
    refine (hactions.append hdecision fun x y hx hy => ?_).mono fun x hx => ?_
    · exact hx.path_ne_decision hstart hy
    · rcases hx with hx | hx
      · exact hx.enter hplaced ha hunran hend
      · exact Task.reach_decision hstate hunran hend.finish hx
  | @activate i _ target state site bindings m m' a bound s arguments store trace ha hr hsur hargs
      hb h ih =>
    obtain ⟨own, hfits⟩ := hf.of_action? hp.action?
    have hown := Action.activate_logged (Run.surroundings_symbols hsur) hfits hargs
    have hrest := ih trivial nofun
    have hran : ∀ j, m.Ran c j → ({ m with store }.modifyOption target fun _ => bound).Ran c j :=
      fun j => (Machine.ran_bind_iff ha hb).2
    rw [traceLog_cons, Moment.log_action hp.action?]
    refine (hown.append hrest fun x y hx hy => ?_).mono fun x hx => ?_
    · exact (Task.reach_action hp hx).path_ne hy hp trivial ho nofun hran fun _ _ => id
    · rcases hx with hx | hx
      · exact Task.reach_action hp hx
      · exact hx.activate hran
  | @behave i _ target _ site bindings m _ behavior s _ _ _ _ hb hsur hargs =>
    obtain ⟨own, hfits⟩ := hf.of_action? hp.action?
    have hown := Action.behave_logged (Run.surroundings_symbols hsur) hb hfits
      (hc.of_action? hp.action?) hargs
    rw [traceLog_behave hp.action?]
    exact hown.mono fun _ hx => Task.reach_action hp hx
  | @assign i _ _ _ _ _ site m s _ _ _ hsur hx hk =>
    obtain ⟨own, hfits⟩ := hf.of_action? hp.action?
    have hown := Action.assign_logged (Run.surroundings_symbols hsur) hk hfits hx
    rw [traceLog_assign hp.action?]
    exact hown.mono fun _ hx => Task.reach_action hp hx
  | @cons i _ n state path a as m m₁ m' _ _ h hs ih ihs =>
    rw [traceLog_append]
    have hran := fun i hi => h.runs.ran_mono (ho i hi)
    refine ((ih hp.head ho).append (ihs hp.tail hran) fun x y hx hy => ?_).mono fun x hx => ?_
    · refine hx.path_ne hy hp.head hp.tail ho ho (fun i => h.runs.ran_mono) ?_
      rintro q hq ⟨j, hj, -, hsuffix⟩
      exact Path.ne_of_suffix (by omega) hq hsuffix rfl
    · rcases hx with hx | hx
      · exact hx.head fun j => hs.runs.ran_mono
      · exact hx.tail fun j => h.runs.ran_mono

/-- **The behaviors that a log runs are those of the cycle**, so each of them runs at most once. -/
theorem Traces.ran?_eq (hf : p.Fits) (h : Traces p c t depth m trace m')
    (hp : t.Placed p.graph) : (traceLog p trace).filterMap HostEvent.ran? =
      behaved (trace.filterMap Moment.event?) := by
  induction h with
  | again | skipOption | skipBehavior | nil => rfl
  | enter _ _ hn hb hk hs _ _ hsur hsel _ ih =>
    subst hb hk
    have hstate := Graph.state?_eq_some.2 ⟨_, hn, hs⟩
    obtain ⟨_, -, hfits⟩ := hf.of_state? hstate
    have hdecision := Statement.logged (Run.surroundings_symbols hsur) _ _ hfits.decision hsel
    have hnone := hdecision.ran?_eq_nil fun _ hc =>
      Callee.ne_behavior (Statement.callee_of_mem_calls hc)
    rw [traceLog_enter hstate, List.filterMap_append, ih (.enter hn hs), hnone, List.append_nil]
    simp [Moment.event?, List.filterMap_cons]
  | @activate _ _ _ _ _ bindings _ _ _ _ _ _ _ trace _ _ hsur hargs _ _ ih =>
    obtain ⟨own, hfits⟩ := hf.of_action? hp.action?
    have hown := Action.activate_logged (Run.surroundings_symbols hsur) hfits hargs
    have hnone := hown.ran?_eq_nil fun c hc => by
      rcases List.mem_cons.1 hc with rfl | hc
      · simp
      · exact Callee.ne_behavior (Binding.callee_of_mem_calls hc)
    rw [traceLog_cons, Moment.log_action hp.action?, List.filterMap_append, hnone, ih trivial]
    rfl
  | behave _ _ hb hsur hargs =>
    obtain ⟨own, hfits⟩ := hf.of_action? hp.action?
    have hown := Action.behave_ran? (Run.surroundings_symbols hsur) hb hfits hargs
    rw [traceLog_behave hp.action?, hown]
    rfl
  | assign hsur hx hk =>
    obtain ⟨own, hfits⟩ := hf.of_action? hp.action?
    have hown := Action.assign_logged (Run.surroundings_symbols hsur) hk hfits hx
    have hnone := hown.ran?_eq_nil fun _ hc =>
      Callee.ne_behavior (Expr.callee_of_mem_calls _ hc)
    rw [traceLog_assign hp.action?, hnone]
    rfl
  | cons _ _ ih ihs =>
    rw [traceLog_append, List.filterMap_append, List.filterMap_append, behaved_append,
      ih hp.head, ihs hp.tail]

end Traces

end BehaviorEngine
