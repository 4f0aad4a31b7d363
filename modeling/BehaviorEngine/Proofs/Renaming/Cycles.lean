import BehaviorEngine.Proofs.Cycle.Log
import BehaviorEngine.Proofs.Renaming.Evaluation

/-!
Cycles do not depend on the order of registration. From the same store, and with the same memory of
what ran, the same options run in the same states, and the host is asked the same in the same order;
only the positions of symbols and behaviors differ.
-/

namespace BehaviorEngine

variable {σ : Type} {ρ : Renaming}

/-! ### Graphs -/

namespace Graph

variable {g : Graph}

@[simp] theorem options_at?_rename (i : Nat) :
    (g.rename ρ).options.at? i = (g.options.at? i).map (Node.rename ρ) := Registry.at?_map _ i

@[simp] theorem options_name?_rename (i : Nat) :
    (g.rename ρ).options.name? i = g.options.name? i := Registry.name?_map _ i

theorem state?_rename (i k : Nat) :
    (g.rename ρ).state? i k = (g.state? i k).map (State.rename ρ) := by
  rw [state?, state?, options_at?_rename]
  cases g.options.at? i with
  | none => rfl
  | some node => exact Registry.at?_map _ k

theorem action?_rename (path : Path) :
    (g.rename ρ).action? path = (g.action? path).map (Action.rename ρ) := by
  unfold action?
  split
  · next n k i =>
    rw [state?_rename]
    cases g.state? i k with
    | none => rfl
    | some state => exact List.getElem?_map
  · rfl

theorem decision?_rename (path : Path) :
    (g.rename ρ).decision? path = (g.decision? path).map (Statement.rename ρ) := by
  unfold decision?
  split
  · next n k i =>
    rw [state?_rename]
    cases g.state? i k with
    | none => rfl
    | some state =>
      simp only [Option.map_some, Option.bind_some, State.rename, List.length_map]
      split <;> rfl
  · rfl

end Graph

/-! ### Machines -/

/-- **The same program in both environments.** -/
structure Program.Renames (ρ : Renaming) (p p' : Program σ) : Prop where
  environment : p.environment.Renames ρ p'.environment
  graph : p'.graph = p.graph.rename ρ

/-- **The same machine in both environments**: worlds, call sites and options are the same, and the
same is remembered of behaviors and output symbols. -/
structure Machine.Renames (ρ : Renaming) (m m' : Machine σ) : Prop where
  store : m'.store = m.store
  options : m'.options = m.options
  behaviors : ∀ b, m'.behaviors[ρ.behavior b]? = m.behaviors[b]?
  assigned : ∀ d, m'.assigned.get d = (m.assigned.get d).map (ρ.output d)

/-- A part of a cycle, in the other environment. -/
def Task.rename (ρ : Renaming) : Task → Task
  | .option i => .option i
  | .action i state site a => .action i (state.rename ρ) site (a.rename ρ)
  | .actions i state path k as => .actions i (state.rename ρ) path k (as.map (Action.rename ρ))

/-- **The same moment in both environments.** -/
inductive Moment.Renames (ρ : Renaming) : Moment σ → Moment σ → Prop
  | enters (depth i k time stateTime : Nat) :
      Moment.Renames ρ (.enters depth i k time stateTime) (.enters depth i k time stateTime)
  | evaluates (i : Nat) (path : Path) {s s' : Surroundings σ} {m m' : Machine σ}
      (hs : s.Renames ρ s') (hm : m.Renames ρ m') :
      Moment.Renames ρ (.evaluates i path s m) (.evaluates i path s' m')
  | requests (depth b : Nat) :
      Moment.Renames ρ (.requests depth b) (.requests depth (ρ.behavior b))
  | behaves (depth b : Nat) : Moment.Renames ρ (.behaves depth b) (.behaves depth (ρ.behavior b))
  | assigns (depth : Nat) {d : Domain} (k : Nat) (e : Expr d) (x : d.Value) :
      Moment.Renames ρ (.assigns depth k e x) (.assigns depth (ρ.output d k) (e.rename ρ) x)
  | selects (i k : Nat) : Moment.Renames ρ (.selects i k) (.selects i k)

section Machines

variable {p p' : Program σ} {m m' : Machine σ} {c : Cycle} {i : Nat}

namespace Machine.Renames

theorem modifyOption (h : m.Renames ρ m') (i : Nat) (f : Activation → Activation) :
    (m.modifyOption i f).Renames ρ (m'.modifyOption i f) :=
  ⟨h.store, congrArg (List.modify · i f) h.options, h.behaviors, h.assigned⟩

theorem withStore (h : m.Renames ρ m') (store : Store σ) :
    { m with store }.Renames ρ { m' with store } :=
  ⟨rfl, h.options, h.behaviors, h.assigned⟩

/-- An option is the same in both machines. -/
theorem option_eq (h : m.Renames ρ m') {a b : Activation} (ha : m.options[i]? = some a)
    (hb : m'.options[i]? = some b) : a = b := by
  rw [h.options] at hb
  exact Option.some_inj.1 (ha.symm.trans hb)

theorem behave (h : m.Renames ρ m') (store : Store σ) (b : Nat) (last : Option Nat) :
    { m with store, behaviors := m.behaviors.set b last }.Renames ρ
      { m' with store, behaviors := m'.behaviors.set (ρ.behavior b) last } :=
  ⟨rfl, h.options, getElem?_set_positions h.behaviors b last, h.assigned⟩

theorem assign (h : m.Renames ρ m') (store : Store σ) (d : Domain) (k : Nat) :
    { m with store, assigned := m.assigned.modify d (k :: ·) }.Renames ρ
      { m' with store, assigned := m'.assigned.modify d (ρ.output d k :: ·) } := by
  refine ⟨rfl, h.options, h.behaviors, fun d' => ?_⟩
  by_cases hd : d' = d
  · subst hd
    rw [PerDomain.get_modify, PerDomain.get_modify, h.assigned, List.map_cons]
  · rw [PerDomain.get_modify_of_ne _ _ hd, PerDomain.get_modify_of_ne _ _ hd, h.assigned]

theorem restsInTarget_eq (hp : p.Renames ρ p') (options : List Activation) (cycle i : Nat) :
    Run.restsInTarget p'.graph options cycle i = Run.restsInTarget p.graph options cycle i := by
  unfold Run.restsInTarget
  rw [hp.graph, Graph.options_at?_rename]
  cases options[i]? with
  | none => rfl
  | some a =>
    cases g : p.graph.options.at? i with
    | none => rfl
    | some node =>
      simp only [Option.map_some, Option.bind_eq_bind, Option.bind_some, Graph.Node.rename,
        Registry.at?_map]
      cases node.states.at? a.active <;> rfl

/-- What expressions read is the same in both environments. -/
theorem surroundings (hp : p.Renames ρ p') (h : m.Renames ρ m') {state : Graph.State}
    {s s' : Surroundings σ} (hs : Run.surroundings p c i state m = some (s, m))
    (hs' : Run.surroundings p' c i (state.rename ρ) m' = some (s', m')) : s.Renames ρ s' := by
  obtain ⟨-, a, time, ha, ht, rfl⟩ := Run.surroundings_eq_some.1 hs
  obtain ⟨-, a', time', ha', ht', rfl⟩ := Run.surroundings_eq_some.1 hs'
  rw [h.options] at ha'
  obtain rfl := Option.some_inj.1 (ha.symm.trans ha')
  obtain rfl := Option.some_inj.1 (ht.symm.trans ht')
  refine ⟨hp.environment.symbols, rfl, rfl, rfl, ?_⟩
  rw [Graph.State.activated_rename, h.options]
  exact congrArg (List.anyM · state.activated)
    (funext (restsInTarget_eq hp m.options c.number))

end Machine.Renames

theorem Run.argumentsAt_rename {s s' : Surroundings σ} (hs : s.Renames ρ s') (site : Path)
    (bs : List Binding) :
    Run.argumentsAt s' site (bs.map (Binding.rename ρ)) = Run.argumentsAt s site bs := by
  rw [Run.argumentsAt, Run.argumentsAt, ← Binding.renameAll_eq, Binding.values_rename hs]

/-- **The same moment asks the same of the host.** -/
theorem Moment.Renames.log_eq (hp : p.Renames ρ p') {x y : Moment σ} (h : x.Renames ρ y) :
    y.log p' = (x.log p).map (HostEvent.rename ρ) := by
  cases h with
  | enters | requests | behaves | assigns | selects => rfl
  | evaluates i path hs hm =>
    rw [Moment.log, Moment.log, hp.graph, Graph.action?_rename, Graph.decision?_rename, hm.store]
    cases p.graph.action? path with
    | some a => exact Action.log_rename hs hp.environment path a _
    | none =>
      cases p.graph.decision? path with
      | none => rfl
      | some t => exact Statement.log_rename hs hp.environment path t _

/-- **The same cycle asks the same of the host, in the same order.** -/
theorem traceLog_rename (hp : p.Renames ρ p') {trace trace' : List (Moment σ)}
    (h : List.Forall₂ (Moment.Renames ρ) trace trace') :
    traceLog p' trace' = (traceLog p trace).map (HostEvent.rename ρ) := by
  induction h with
  | nil => rfl
  | cons h _ ih =>
    rw [traceLog_cons, traceLog_cons, h.log_eq hp, ih, List.map_append]

end Machines

/-! ### Cycles -/

/-- **From the same machine, parts of a cycle run alike in both environments.** -/
theorem Traces.renames {p p' : Program σ} {c : Cycle} {t : Task} {depth : Nat}
    {m m' m₁ m₁' : Machine σ} {trace trace' : List (Moment σ)} (hp : p.Renames ρ p')
    (h : Traces p c t depth m trace m₁) (h' : Traces p' c (t.rename ρ) depth m' trace' m₁')
    (hm : m.Renames ρ m') :
    List.Forall₂ (Moment.Renames ρ) trace trace' ∧ m₁.Renames ρ m₁' := by
  induction h generalizing m' trace' m₁' with
  | again ha hr =>
    cases h' with
    | again => exact ⟨.nil, hm⟩
    | enter ha' hr' =>
      obtain rfl := hm.option_eq ha ha'
      cases hr.symm.trans hr'
  | @enter i depth k next time m m₁ a b node state trace s store ha hr hn hb hk hs ht hacts hsur
      hsel hnext ih =>
    cases h' with
    | again ha' hr' =>
      obtain rfl := hm.option_eq ha ha'
      cases hr.symm.trans hr'
    | @enter _ _ k' next' time' _ m₁' a' b' node' state' trace' s' store' ha' hr' hn' hb' hk' hs'
        ht' hacts' hsur' hsel' hnext' =>
      obtain rfl := hm.option_eq ha ha'
      rw [hp.graph, Graph.options_at?_rename, hn] at hn'
      obtain rfl := Option.some_inj.1 hn'
      obtain rfl : b = b' := hb.trans hb'.symm
      obtain rfl : k = k' := hk.trans hk'.symm
      rw [Graph.Node.rename, Registry.at?_map, hs] at hs'
      obtain rfl := Option.some_inj.1 hs'
      obtain rfl := Option.some_inj.1 (ht.symm.trans ht')
      obtain ⟨hactions, hm₁⟩ := ih hacts' (hm.modifyOption i _)
      have hsame := hm₁.surroundings hp hsur hsur'
      rw [Graph.State.rename, List.length_map, Statement.select_rename hsame, hm₁.store,
        hsel] at hsel'
      obtain ⟨rfl, rfl⟩ := Prod.mk.inj (Option.some_inj.1 hsel')
      refine ⟨.cons (.enters ..) (List.rel_append hactions ?_),
        (hm₁.withStore store).modifyOption i _⟩
      rw [Graph.State.rename, List.length_map]
      exact .cons (.evaluates i _ hsame hm₁) (.cons (.selects i next) .nil)
  | skipOption ha hr =>
    cases h' with
    | skipOption => exact ⟨.nil, hm⟩
    | activate ha' hr' =>
      obtain rfl := hm.option_eq ha ha'
      cases hr.symm.trans hr'
  | @activate i _ target _ site bindings m _ a bound s arguments store trace ha hr hsur hargs hb h
      ih =>
    cases h' with
    | skipOption ha' hr' =>
      obtain rfl := hm.option_eq ha ha'
      cases hr.symm.trans hr'
    | @activate _ _ _ _ _ _ _ _ a' bound' s' arguments' store' trace' ha' hr' hsur' hargs' hb' h' =>
      obtain rfl := hm.option_eq ha ha'
      have hsame := hm.surroundings hp hsur hsur'
      rw [Run.argumentsAt_rename hsame, hm.store, hargs] at hargs'
      obtain ⟨rfl, rfl⟩ := Prod.mk.inj (Option.some_inj.1 hargs')
      obtain rfl := Option.some_inj.1 (hb.symm.trans hb')
      obtain ⟨hrest, hend⟩ := ih h' ((hm.withStore store).modifyOption target _)
      exact ⟨.cons (.evaluates i site hsame hm) hrest, hend⟩
  | skipBehavior hl =>
    cases h' with
    | skipBehavior => exact ⟨.cons (.requests _ _) .nil, hm⟩
    | behave hl' hr' =>
      rw [hm.behaviors, hl] at hl'
      exact absurd (Option.some_inj.1 hl').symm hr'
  | @behave i _ target _ site bindings m last behavior s arguments store hl hr hb hsur hargs =>
    cases h' with
    | skipBehavior hl' =>
      rw [hm.behaviors, hl] at hl'
      exact absurd (Option.some_inj.1 hl') hr
    | behave hl' hr' hb' hsur' hargs' =>
      rw [hp.environment.behaviors.at? target, hb] at hb'
      obtain rfl := Option.some_inj.1 hb'
      have hsame := hm.surroundings hp hsur hsur'
      rw [show Evaluate.writeSlot (behavior.rename ρ).parameters =
          (Evaluate.writeSlot behavior.parameters : Argument → Evaluate σ Unit) from
        writeSlot_rename behavior.parameters, ← Binding.renameAll_eq,
        Binding.values_rename hsame, hm.store, hargs] at hargs'
      obtain ⟨rfl, rfl⟩ := Prod.mk.inj (Option.some_inj.1 hargs')
      exact ⟨.cons (.requests ..) (.cons (.evaluates i site hsame hm) (.cons (.behaves ..) .nil)),
        hm.behave _ target _⟩
  | @assign i _ k d expression _ site m s x store symbol hsur hx hk =>
    cases h' with
    | assign hsur' hx' hk' =>
      rw [(hp.environment.symbols.outputs d).at? k, hk] at hk'
      obtain rfl := Option.some_inj.1 hk'
      have hsame := hm.surroundings hp hsur hsur'
      rw [Expr.value_rename hsame, hm.store, hx] at hx'
      obtain ⟨rfl, rfl⟩ := Prod.mk.inj (Option.some_inj.1 hx')
      exact ⟨.cons (.evaluates i site hsame hm) (.cons (.assigns ..) .nil), hm.assign _ d k⟩
  | nil =>
    cases h' with
    | nil => exact ⟨.nil, hm⟩
  | cons h hs ih ihs =>
    cases h' with
    | cons h' hs' =>
      obtain ⟨hhead, hm₁⟩ := ih h' hm
      obtain ⟨htail, hm'⟩ := ihs hs' hm₁
      exact ⟨List.rel_append hhead htail, hm'⟩

end BehaviorEngine
