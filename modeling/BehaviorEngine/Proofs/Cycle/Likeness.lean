import BehaviorEngine.Proofs.Cycle.Notices
import BehaviorEngine.Proofs.Cycle.Parameters

/-!
Two machines that run alike. What an option keeps of runs that are forgotten is not read again: a
state is entered anew before it runs, its clocks start over, and parameters are bound before they
are referred to. So from machines that differ in nothing but that, in what call sites remember, and
in worlds that the engine cannot tell from one another, cycles run alike.
-/

namespace BehaviorEngine

open Partial

variable {σ : Type}

/-! ### Options -/

namespace Activation

/-- Two options keep the same of their last run. -/
structure SameRun (a b : Activation) : Prop where
  active : a.active = b.active
  executed : a.executed = b.executed
  since : a.since = b.since
  elapsed : a.elapsed = b.elapsed
  parameters : a.parameters = b.parameters
  activeClock : a.clocks[a.active]? = b.clocks[b.active]?
  executedClock : a.clocks[a.executed]? = b.clocks[b.executed]?

/-- **Two options of a node are alike**: they ran last in the same cycle, unless that is forgotten,
and if it is not, they keep the same of that run. -/
structure Like (n : Graph.Node) (a b : Activation) : Prop where
  left : a.Fits n
  right : b.Fits n
  lastCycle : a.lastCycle = b.lastCycle
  sameRun : a.lastCycle ≠ none → a.SameRun b

variable {n : Graph.Node} {a b a' b' : Activation} {c : Cycle} {i : Nat}

theorem lastCycle_ne_none {cycle : Nat} (h : a.ranIn cycle = true) : a.lastCycle ≠ none := by
  rw [of_decide_eq_true h]
  exact nofun

/-- A clock that is set. -/
theorem modify_clock {clocks : List StateClock} {f : StateClock → StateClock} {k : Nat} :
    (clocks.modify k f)[k]? = clocks[k]?.map f := by
  simp

namespace Like

theorem forget (ha : a.Fits n) (hb : b.Fits n) : a.forget.Like n b.forget :=
  ⟨ha.forget, hb.forget, rfl, fun h => absurd rfl h⟩

theorem ranIn (h : a.Like n b) (cycle : Nat) : a.ranIn cycle = b.ranIn cycle := by
  rw [Activation.ranIn, Activation.ranIn, h.lastCycle]

theorem showsAlike (h : a.Like n b) (cycle : Nat) : a.ShowsAlike cycle b where
  ranIn := h.ranIn cycle
  elapsed := fun hr => (h.sameRun (lastCycle_ne_none hr)).elapsed
  executed := fun hr => (h.sameRun (lastCycle_ne_none hr)).executed
  stateTime := fun hr => by
    rw [stateTime?, stateTime?, (h.sameRun (lastCycle_ne_none hr)).executedClock]
  parameters := fun hr => (h.sameRun (lastCycle_ne_none hr)).parameters

/-- Options that are alike and have the same parameters start alike. -/
theorem start (h : a.Like n b) (hp : a.parameters = b.parameters)
    (hi : n.initial < n.states.size) :
    (a.start c n.initial).Like n (b.start c n.initial) := by
  have hcontinues : a.continues c.number = b.continues c.number := by
    rw [continues, continues, h.lastCycle]
  have hexecuted : ∀ x : Activation, x.Fits n →
      (x.start c n.initial).executed < n.states.size := by
    intro x hx
    rw [start_executed]
    split
    · exact hx.active
    · exact hi
  refine ⟨h.left.start (hexecuted a h.left), h.right.start (hexecuted b h.right), by simp,
    fun _ => ?_⟩
  unfold Activation.start
  rw [← hcontinues]
  cases hc : a.continues c.number with
  | true =>
    have hlast : a.lastCycle ≠ none := by
      intro hnone
      simp [continues, hnone] at hc
    have hrun := h.sameRun hlast
    have hclock : (a.clocks.modify a.active (StateClock.advance c.now))[a.active]? =
        (b.clocks.modify b.active (StateClock.advance c.now))[b.active]? := by
      rw [modify_clock, modify_clock, hrun.activeClock]
    exact ⟨hrun.active, hrun.active, hrun.since, congrArg (c.now - ·) hrun.since, hp, hclock,
      hclock⟩
  | false =>
    have hclock : ∀ x : Activation, x.Fits n →
        ((x.clocks.modify n.initial fun _ => StateClock.restart c.now).modify n.initial
          (StateClock.advance c.now))[n.initial]? =
            some (StateClock.advance c.now (StateClock.restart c.now)) := by
      intro x hx
      have hlt : n.initial < x.clocks.length := hx.clocks ▸ hi
      rw [modify_clock, modify_clock, List.getElem?_eq_getElem hlt]
      rfl
    have hsame := (hclock a h.left).trans (hclock b h.right).symm
    exact ⟨rfl, rfl, rfl, rfl, hp, hsame, hsame⟩

/-- Options that run alike and select the same state stay alike. -/
theorem finish (h : a.Like n b) (hr : a.ranIn c.number = true) (hi : i < n.states.size) :
    (a.finish c i).Like n (b.finish c i) := by
  have hrun := h.sameRun (lastCycle_ne_none hr)
  refine ⟨h.left.finish hi, h.right.finish hi, by simpa using h.lastCycle, fun _ => ?_⟩
  unfold Activation.finish
  rw [← hrun.executed]
  split
  · exact hrun
  · next hne =>
    have hclock : ∀ x : Activation, x.Fits n →
        (x.clocks.modify i fun _ => StateClock.restart c.now)[i]? =
          some (StateClock.restart c.now) := by
      intro x hx
      have hlt : i < x.clocks.length := hx.clocks ▸ hi
      rw [modify_clock, List.getElem?_eq_getElem hlt]
      rfl
    have hexecuted : (a.clocks.modify i fun _ => StateClock.restart c.now)[a.executed]? =
        (b.clocks.modify i fun _ => StateClock.restart c.now)[b.executed]? := by
      rw [← hrun.executed, List.getElem?_modify_ne _ _ hne, List.getElem?_modify_ne _ _ hne,
        hrun.executedClock, hrun.executed]
    exact ⟨rfl, hrun.executed, hrun.since, hrun.elapsed, hrun.parameters,
      (hclock a h.left).trans (hclock b h.right).symm, hexecuted⟩

/-- Options whose parameters are all bound to the same values have the same parameters. -/
theorem bind {arguments : List Argument} (h : a.Like n b)
    (hx : n.parameters.BoundBy arguments) (ha : arguments.foldlM bind? a = some a')
    (hb : arguments.foldlM bind? b = some b') : a'.Like n b' ∧ a'.parameters = b'.parameters := by
  have hfits := h.left.bind ha
  have hfits' := h.right.bind hb
  have hsame : a'.parameters = b'.parameters := by
    refine PerDomain.ext_get fun d => List.ext_getElem? fun i => Option.ext fun x => ?_
    exact (fill hx ha hfits.parameters d i x).trans (fill hx hb hfits'.parameters d i x).symm
  refine ⟨⟨hfits, hfits', ?_, ?_⟩, hsame⟩
  · rw [(foldlM_bind?_eq_some ha).1, (foldlM_bind?_eq_some hb).1]
    exact h.lastCycle
  · intro hlast
    rw [(foldlM_bind?_eq_some ha).1] at hlast ⊢
    rw [(foldlM_bind?_eq_some hb).1]
    have hrun := h.sameRun hlast
    exact ⟨hrun.active, hrun.executed, hrun.since, hrun.elapsed, hsame, hrun.activeClock,
      hrun.executedClock⟩

/-- Where a node has no parameters, options have the same parameters. -/
theorem parameters_eq (h : a.Like n b) (hn : ∀ d, n.parameters.sizes d = 0) :
    a.parameters = b.parameters := by
  refine PerDomain.ext_get fun d => ?_
  have hnil : ∀ x : Activation, x.Fits n → x.parameters.get d = [] := fun x hx =>
    List.eq_nil_of_length_eq_zero ((hx.parameters d).trans (hn d))
  rw [hnil a h.left, hnil b h.right]

end Like

end Activation

/-! ### Machines -/

/-- **Two machines are alike**: their worlds cannot be told apart, and their options keep the same.
What call sites remember may differ. -/
structure Machine.Like (p : Program σ) (Same : World σ → World σ → Prop) (m m' : Machine σ) :
    Prop where
  world : Same m.store.world m'.store.world
  length : m.options.length = m'.options.length
  options : ∀ (i : Nat) (a b : Activation), m.options[i]? = some a → m'.options[i]? = some b →
    ∃ n, p.graph.options.at? i = some n ∧ a.Like n b
  behaviors : m.behaviors = m'.behaviors
  assigned : m.assigned = m'.assigned

/-- Two moments are the same but for the machines on which something is evaluated; these have worlds
that cannot be told apart. -/
inductive Moment.Like (environment : Environment σ) (Same : World σ → World σ → Prop) :
    Moment σ → Moment σ → Prop
  | enters (depth i k time stateTime : Nat) :
      Moment.Like environment Same (.enters depth i k time stateTime)
        (.enters depth i k time stateTime)
  | evaluates {i : Nat} {path : Path} {s : Surroundings σ} {m m' : Machine σ}
      (hs : s.symbols = environment.symbols) (hw : Same m.store.world m'.store.world) :
      Moment.Like environment Same (.evaluates i path s m) (.evaluates i path s m')
  | requests (depth b : Nat) :
      Moment.Like environment Same (.requests depth b) (.requests depth b)
  | behaves (depth b : Nat) :
      Moment.Like environment Same (.behaves depth b) (.behaves depth b)
  | assigns (depth : Nat) {d : Domain} (k : Nat) (e : Expr d) (x : d.Value) :
      Moment.Like environment Same (.assigns depth k e x) (.assigns depth k e x)
  | selects (i k : Nat) : Moment.Like environment Same (.selects i k) (.selects i k)

section Machines

variable {p : Program σ} {Same : World σ → World σ → Prop} {m m' : Machine σ} {c : Cycle}
  {i : Nat}

/-- Moments that are alike yield the same. -/
theorem Moment.Like.yields_eq (hR : p.environment.IgnoresNotices Same) {x y : Moment σ}
    (h : x.Like p.environment Same y) : x.yields p = y.yields p := by
  cases h with
  | enters | requests | behaves | assigns | selects => rfl
  | @evaluates i path s m m' hs hw =>
    rw [Moment.yields, Moment.yields]
    split
    · exact Action.yields_eq hR hs path _ hw
    · cases p.graph.decision? path with
      | none => rfl
      | some t => exact (Statement.steady hR hs path t).yields _ _ hw

/-- **Traces that are alike yield the same.** -/
theorem traceYields_eq (hR : p.environment.IgnoresNotices Same) {trace trace' : List (Moment σ)}
    (h : List.Forall₂ (Moment.Like p.environment Same) trace trace') :
    traceYields p trace = traceYields p trace' := by
  induction h with
  | nil => rfl
  | cons h _ ih => rw [traceYields_cons, traceYields_cons, h.yields_eq hR, ih]

namespace Machine.Like

/-- The state of an option on both sides. -/
theorem exists_of_getElem? (h : m.Like p Same m') {a : Activation} (ha : m.options[i]? = some a) :
    ∃ b n, m'.options[i]? = some b ∧ p.graph.options.at? i = some n ∧ a.Like n b := by
  have hlt : i < m'.options.length := h.length ▸ (List.getElem?_eq_some_iff.1 ha).1
  have hb := List.getElem?_eq_getElem hlt
  obtain ⟨n, hn, hab⟩ := h.options i a _ ha hb
  exact ⟨_, n, hb, hn, hab⟩

/-- An option shows the same on both sides. -/
theorem showsAlike (h : m.Like p Same m') {a b : Activation} (ha : m.options[i]? = some a)
    (hb : m'.options[i]? = some b) (cycle : Nat) : a.ShowsAlike cycle b := by
  obtain ⟨n, -, hab⟩ := h.options i a b ha hb
  exact hab.showsAlike cycle

theorem ranIn_eq (h : m.Like p Same m') {a b : Activation} (ha : m.options[i]? = some a)
    (hb : m'.options[i]? = some b) (cycle : Nat) : a.ranIn cycle = b.ranIn cycle :=
  (h.showsAlike ha hb cycle).ranIn

/-- Changing two options of a node to options that are alike. -/
theorem modifyOption (h : m.Like p Same m') {f g : Activation → Activation}
    (hf : ∀ (n : Graph.Node) (a b : Activation), p.graph.options.at? i = some n →
      m.options[i]? = some a → m'.options[i]? = some b → a.Like n b → (f a).Like n (g b)) :
    (m.modifyOption i f).Like p Same (m'.modifyOption i g) where
  world := h.world
  length := by simpa using h.length
  options := by
    intro j a b ha hb
    by_cases hij : i = j
    · subst hij
      obtain ⟨a, ha', rfl⟩ : ∃ a', m.options[i]? = some a' ∧ f a' = a := by
        simpa [Machine.modifyOption] using ha
      obtain ⟨b, hb', rfl⟩ : ∃ b', m'.options[i]? = some b' ∧ g b' = b := by
        simpa [Machine.modifyOption] using hb
      obtain ⟨n, hn, hab⟩ := h.options i a b ha' hb'
      exact ⟨n, hn, hf n a b hn ha' hb' hab⟩
    · rw [Machine.modifyOption_getElem?_of_ne hij] at ha hb
      exact h.options j a b ha hb
  behaviors := h.behaviors
  assigned := h.assigned

theorem restsInTarget_eq (h : m.Like p Same m') (cycle i : Nat) :
    Run.restsInTarget p.graph m.options cycle i = Run.restsInTarget p.graph m'.options cycle i := by
  cases ha : m.options[i]? with
  | none =>
    have hb : m'.options[i]? = none := by
      rw [List.getElem?_eq_none_iff] at ha ⊢
      exact h.length ▸ ha
    simp [Run.restsInTarget, ha, hb]
  | some a =>
    obtain ⟨b, n, hb, hn, hab⟩ := h.exists_of_getElem? ha
    have hlately : a.ranLately cycle = b.ranLately cycle := by
      rw [Activation.ranLately, Activation.ranLately, hab.lastCycle]
    simp only [Run.restsInTarget, ha, hb, Option.bind_eq_bind, Option.bind_some, ← hlately]
    cases hr : a.ranLately cycle with
    | false => rfl
    | true =>
      have hlast : a.lastCycle ≠ none := by
        intro hnone
        simp [Activation.ranLately, hnone] at hr
      rw [(hab.sameRun hlast).active]

/-- **What an option that has run evaluates is evaluated in the same surroundings.** -/
theorem surroundings_eq (h : m.Like p Same m') {state : Graph.State} {s s' : Surroundings σ}
    (hran : m.Ran c i) (hs : Run.surroundings p c i state m = some (s, m))
    (hs' : Run.surroundings p c i state m' = some (s', m')) : s = s' := by
  obtain ⟨-, a, time, ha, ht, rfl⟩ := Run.surroundings_eq_some.1 hs
  obtain ⟨-, b, time', hb, ht', rfl⟩ := Run.surroundings_eq_some.1 hs'
  have hshows := h.showsAlike ha hb c.number
  have hr := (Machine.ran_iff ha).1 hran
  obtain rfl : time = time' :=
    Option.some_inj.1 (ht.symm.trans ((hshows.stateTime hr).trans ht'))
  rw [hshows.parameters hr, hshows.elapsed hr, funext (h.restsInTarget_eq c.number)]

/-- An option with the same parameters on both sides starts alike. -/
theorem start (h : m.Like p Same m') (c : Cycle) {node : Graph.Node}
    (hn : p.graph.options.at? i = some node) (hi : node.initial < node.states.size)
    (hp : ∀ a b : Activation, m.options[i]? = some a → m'.options[i]? = some b →
      a.parameters = b.parameters) :
    (m.modifyOption i fun a => a.start c node.initial).Like p Same
      (m'.modifyOption i fun a => a.start c node.initial) :=
  h.modifyOption fun n a b hn' ha hb hab => by
    obtain rfl := Option.some_inj.1 (hn.symm.trans hn')
    exact hab.start (hp a b ha hb) hi

/-- An option that has run selects the same state on both sides. -/
theorem finish (h : m.Like p Same m') {node : Graph.Node} {next : Nat}
    (hn : p.graph.options.at? i = some node) (hran : m.Ran c i) (hi : next < node.states.size) :
    (m.modifyOption i fun a => a.finish c next).Like p Same
      (m'.modifyOption i fun a => a.finish c next) :=
  h.modifyOption fun n a b hn' ha _ hab => by
    obtain rfl := Option.some_inj.1 (hn.symm.trans hn')
    exact hab.finish ((Machine.ran_iff ha).1 hran) hi

/-- An evaluation that is alike leaves machines that are alike. -/
theorem withStore (h : m.Like p Same m') {store store' : Store σ}
    (hw : Same store.world store'.world) :
    { m with store }.Like p Same { m' with store := store' } :=
  ⟨hw, h.length, h.options, h.behaviors, h.assigned⟩

end Machine.Like

end Machines

/-! ### Cycles -/

/-- The option that is to run has the same parameters on both sides. -/
def Task.SameParameters (m m' : Machine σ) : Task → Prop
  | .option i => ∀ a b : Activation, m.options[i]? = some a → m'.options[i]? = some b →
    a.parameters = b.parameters
  | _ => True

section Traces

variable {p : Program σ} {Same : World σ → World σ → Prop} {c : Cycle} {t : Task} {depth : Nat}
  {m m' m₁ m₁' : Machine σ} {trace trace' : List (Moment σ)}

/-- An option that starts alike on both sides runs in the same state, with the same times. -/
theorem Machine.Like.start_eq {i initial time time' : Nat} {a a' : Activation}
    (h : (m.modifyOption i fun a => a.start c initial).Like p Same
      (m'.modifyOption i fun a => a.start c initial))
    (ha : m.options[i]? = some a) (ha' : m'.options[i]? = some a')
    (ht : (a.start c initial).stateTime? (a.start c initial).executed = some time)
    (ht' : (a'.start c initial).stateTime? (a'.start c initial).executed = some time') :
    (a.start c initial).executed = (a'.start c initial).executed ∧
      (a.start c initial).elapsed = (a'.start c initial).elapsed ∧ time = time' := by
  have hshows := h.showsAlike (Machine.modifyOption_getElem? ha)
    (Machine.modifyOption_getElem? ha') c.number
  have htime := hshows.stateTime Activation.start_ranIn
  rw [ht, ht'] at htime
  exact ⟨hshows.executed Activation.start_ranIn, hshows.elapsed Activation.start_ranIn,
    Option.some_inj.1 htime⟩

/-- All parameters of an option that is activated are bound, so nothing is left of what they were
before. -/
theorem Machine.Like.bind {target : Nat} {node : Graph.Node} {a a' bound bound' : Activation}
    {arguments : List Argument} (hm : m.Like p Same m')
    (hn : p.graph.options.at? target = some node) (hx : node.parameters.BoundBy arguments)
    (ha : m.options[target]? = some a) (ha' : m'.options[target]? = some a')
    (hb : arguments.foldlM Activation.bind? a = some bound)
    (hb' : arguments.foldlM Activation.bind? a' = some bound') :
    (m.modifyOption target fun _ => bound).Like p Same (m'.modifyOption target fun _ => bound') ∧
      (Task.option target).SameParameters (m.modifyOption target fun _ => bound)
        (m'.modifyOption target fun _ => bound') := by
  obtain ⟨n, hn', hab⟩ := hm.options target a a' ha ha'
  obtain rfl := Option.some_inj.1 (hn.symm.trans hn')
  obtain ⟨hbound, hsame⟩ := hab.bind hx hb hb'
  refine ⟨hm.modifyOption fun n _ _ hn' _ _ _ => ?_, fun x y hx hy => ?_⟩
  · obtain rfl := Option.some_inj.1 (hn.symm.trans hn')
    exact hbound
  · obtain rfl := Option.some_inj.1 ((Machine.modifyOption_getElem? ha).symm.trans hx)
    obtain rfl := Option.some_inj.1 ((Machine.modifyOption_getElem? ha').symm.trans hy)
    exact hsame

/-- **From machines that are alike, parts of a cycle run alike.** -/
theorem Traces.alike (hR : p.environment.IgnoresNotices Same) (hf : p.Fits) (hc : p.Complete)
    (h : Traces p c t depth m trace m₁) (h' : Traces p c t depth m' trace' m₁')
    (hp : t.Placed p.graph) (ho : ∀ i ∈ t.owner?, m.Ran c i) (hm : m.Like p Same m')
    (ht : t.SameParameters m m') :
    List.Forall₂ (Moment.Like p.environment Same) trace trace' ∧ m₁.Like p Same m₁' := by
  induction h generalizing m' trace' m₁' with
  | again ha hr =>
    cases h' with
    | again => exact ⟨.nil, hm⟩
    | enter ha' hr' => cases hr.symm.trans ((hm.ranIn_eq ha ha' _).trans hr')
  | @enter i depth k next time m m₁ a b node state trace s store ha hr hn hb hk hs hst hacts hsur
      hsel hnext ih =>
    cases h' with
    | again ha' hr' => cases hr.symm.trans ((hm.ranIn_eq ha ha' _).trans hr')
    | @enter _ _ k' next' time' _ m₁' a' b' node' state' trace' s' store' ha' hr' hn' hb' hk' hs'
        hst' hacts' hsur' hsel' hnext' =>
      obtain rfl := Option.some_inj.1 (hn.symm.trans hn')
      have hnode := hf.options node (Registry.at?_mem hn)
      have hstart := hm.start c hn hnode.initial ht
      have hran : (m.modifyOption i fun a => a.start c node.initial).Ran c i :=
        Machine.ran_start ha
      subst hb hb' hk hk'
      obtain ⟨hexecuted, helapsed, rfl⟩ := hstart.start_eq ha ha' hst hst'
      rw [← hexecuted] at hs' hacts' hsel' ⊢
      obtain rfl := Option.some_inj.1 (hs.symm.trans hs')
      obtain ⟨hactions, hm₁⟩ := ih hacts' (.enter hn hs) (by rintro _ ⟨⟩; exact hran) hstart trivial
      have hran₁ := hacts.runs.ran_mono hran
      obtain rfl := hm₁.surroundings_eq hran₁ hsur hsur'
      have hsymbols := Run.surroundings_symbols hsur
      obtain ⟨rfl, hw⟩ := (Statement.steady hR hsymbols _ state.decision).alike.eq_of_eq_some
        hm₁.world hsel hsel'
      rw [helapsed]
      refine ⟨.cons (.enters ..) (List.rel_append hactions
        (.cons (.evaluates hsymbols hm₁.world) (.cons (.selects ..) .nil))), ?_⟩
      exact (hm₁.withStore hw).finish hn hran₁ hnext
  | skipOption ha hr =>
    cases h' with
    | skipOption => exact ⟨.nil, hm⟩
    | activate ha' hr' => cases hr.symm.trans ((hm.ranIn_eq ha ha' _).trans hr')
  | @activate i _ target _ site bindings m _ a bound s arguments store trace ha hr hsur hargs hb h
      ih =>
    cases h' with
    | skipOption ha' hr' => cases hr.symm.trans ((hm.ranIn_eq ha ha' _).trans hr')
    | @activate _ _ _ _ _ _ _ _ a' bound' s' arguments' store' trace' ha' hr' hsur' hargs' hb' h' =>
      obtain rfl := hm.surroundings_eq (ho i rfl) hsur hsur'
      have hsymbols := Run.surroundings_symbols hsur
      obtain ⟨rfl, hw⟩ :=
        (Run.argumentsAt_alike hR hsymbols site bindings).eq_of_eq_some hm.world hargs hargs'
      obtain ⟨goal, hgoal, honce⟩ := hc.activation_boundBy hf hp.action? hargs
      obtain ⟨hstart, hparameters⟩ := (hm.withStore hw).bind hgoal honce ha ha' hb hb'
      obtain ⟨hrest, hend⟩ := ih h' trivial nofun hstart hparameters
      exact ⟨.cons (.evaluates hsymbols hm.world) hrest, hend⟩
  | skipBehavior hl =>
    cases h' with
    | skipBehavior => exact ⟨.cons (.requests _ _) .nil, hm⟩
    | behave hl' hr' => exact absurd (Option.some_inj.1 (hl'.symm.trans (hm.behaviors ▸ hl))) hr'
  | @behave i _ target _ site bindings m last behavior s arguments store hl hr hb hsur hargs =>
    cases h' with
    | skipBehavior hl' => exact absurd (Option.some_inj.1 (hl.symm.trans (hm.behaviors ▸ hl'))) hr
    | behave hl' hr' hb' hsur' hargs' =>
      obtain rfl := Option.some_inj.1 (hb.symm.trans hb')
      obtain rfl := hm.surroundings_eq (ho i rfl) hsur hsur'
      have hsymbols := Run.surroundings_symbols hsur
      have hsite := (Binding.steady hR hsymbols site (.behavior target) bindings).alike
      rw [Environment.write_of_parameters? (Environment.parameters?_behavior hb)] at hsite
      obtain ⟨rfl, hw⟩ := hsite.eq_of_eq_some hm.world hargs hargs'
      refine ⟨.cons (.requests ..) (.cons (.evaluates hsymbols hm.world)
        (.cons (.behaves ..) .nil)), hR.call hb _ _ hw, hm.length, hm.options, ?_, hm.assigned⟩
      rw [hm.behaviors]
  | @assign i _ k d expression _ site m s x store symbol hsur hx hk =>
    cases h' with
    | assign hsur' hx' hk' =>
      obtain rfl := Option.some_inj.1 (hk.symm.trans hk')
      obtain rfl := hm.surroundings_eq (ho i rfl) hsur hsur'
      have hsymbols := Run.surroundings_symbols hsur
      obtain ⟨rfl, hw⟩ :=
        (Expr.steady hR hsymbols site expression).alike.eq_of_eq_some hm.world hx hx'
      refine ⟨.cons (.evaluates hsymbols hm.world) (.cons (.assigns ..) .nil),
        hR.store d k symbol hk _ _ _ hw, hm.length, hm.options, hm.behaviors, ?_⟩
      rw [hm.assigned]
  | nil =>
    cases h' with
    | nil => exact ⟨.nil, hm⟩
  | cons h hs ih ihs =>
    cases h' with
    | cons h' hs' =>
      obtain ⟨hhead, hm₁⟩ := ih h' hp.head ho hm trivial
      obtain ⟨htail, hm'⟩ := ihs hs' hp.tail (fun i hi => h.runs.ran_mono (ho i hi)) hm₁ trivial
      exact ⟨List.rel_append hhead htail, hm'⟩

end Traces

end BehaviorEngine
