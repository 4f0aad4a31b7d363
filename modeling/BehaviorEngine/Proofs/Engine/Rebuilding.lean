import BehaviorEngine.Proofs.Cycle.Likeness
import BehaviorEngine.Proofs.Engine.Refusals

/-!
Resets. A reset forgets only in which cycles options and behaviors ran last; everything else that a
cycle leaves behind stays. That is as good as building the graph again: from then on nothing that
can be seen tells the one engine from the other.
-/

namespace BehaviorEngine

variable {σ : Type}

/-! ### Engines that are alike -/

/-- **Two graphs in use are alike**: it is the same graph with the same root, and the options keep
the same. Agents and what call sites remember may differ. -/
structure Loaded.Like (l l' : Loaded) : Prop where
  graph : l.graph = l'.graph
  root : l.root = l'.root
  length : l.options.length = l'.options.length
  options : ∀ (i : Nat) (a b : Activation), l.options[i]? = some a → l'.options[i]? = some b →
    ∃ n, l.graph.options.at? i = some n ∧ a.Like n b

/-- Where everything is forgotten, the options of a graph keep the same. -/
theorem Loaded.InRange.forget_like {environment : Environment σ} {l l' : Loaded}
    (h : l.InRange environment) (h' : l'.InRange environment) (hg : l.graph = l'.graph)
    (hroot : l.root = l'.root) : Loaded.Like { l with options := l.options.map Activation.forget }
      { l' with options := l'.options.map Activation.forget } where
  graph := hg
  root := hroot
  length := by simp [h.length, h'.length, hg]
  options := by
    intro i a b ha hb
    obtain ⟨a₀, ha₀, rfl⟩ := Option.map_eq_some_iff.1 (List.getElem?_map.symm.trans ha)
    obtain ⟨b₀, hb₀, rfl⟩ := Option.map_eq_some_iff.1 (List.getElem?_map.symm.trans hb)
    have hlt : i < l.graph.options.size := h.length ▸ (List.getElem?_eq_some_iff.1 ha₀).1
    obtain ⟨n, hn⟩ := Registry.at?_isSome_iff.2 hlt
    exact ⟨n, hn, .forget (h.options i n a₀ hn ha₀) (h'.options i n b₀ (hg ▸ hn) hb₀)⟩

namespace Engine

/-- **Two engines are alike**: their worlds cannot be told apart, and neither can their graphs. -/
structure Like (Same : World σ → World σ → Prop) (e e' : Engine σ) : Prop where
  limits : e.limits = e'.limits
  environment : e.environment = e'.environment
  world : Same e.world e'.world
  loaded : Option.Rel Loaded.Like e.loaded e'.loaded
  cycle : e.cycle = e'.cycle
  behaviors : e.behaviors = e'.behaviors
  assigned : e.assigned = e'.assigned

variable {Same : World σ → World σ → Prop} {e e' : Engine σ}

/-- In the course of some calls, no option with parameters is used as root. -/
def PlainRoots (e : Engine σ) (calls : List (Call σ)) : Prop :=
  ∀ before now rest l node, calls = before ++ .execute now :: rest →
    (e.after before).loaded = some l → l.graph.options.at? l.root = some node →
    node.parameters.size = 0

/-- Selecting an agent that there is. -/
theorem call_selectAgent {l : Loaded} {name : String} {found : Nat × Nat} (hl : e.loaded = some l)
    (hf : l.graph.agents.find? name = some found) : e.call (.selectAgent name) =
      { e with loaded := some { l with agent := found.1, root := found.2 } } := by
  rw [call, selectAgent_of_found hl hf]

/-- Selecting a root option that there is. -/
theorem call_selectRoot {l : Loaded} {name : String} {root : Nat} (hl : e.loaded = some l)
    (hf : l.graph.options.position? name = some root) : e.call (.selectRoot name) =
      { e with loaded := some { l with agent := none, root } } := by
  rw [call, selectRoot_of_found hl hf]

/-- **A reset makes engines alike** that have the same graph and the same root. -/
theorem reset_like (hlimits : e.limits = e'.limits) (henvironment : e.environment = e'.environment)
    (hw : Same e.world e'.world) (hcycle : e.cycle = e'.cycle) (ha : e.assigned = e'.assigned)
    (hr : e.InRange) (hr' : e'.InRange)
    (hloaded : Option.Rel (fun l l' : Loaded => l.graph = l'.graph ∧ l.root = l'.root) e.loaded
      e'.loaded) : e.reset.Like Same e'.reset where
  limits := hlimits
  environment := henvironment
  world := hw
  loaded := by
    have hrange := hr.loaded
    have hrange' := hr'.loaded
    rw [reset, reset]
    generalize e.loaded = o at hloaded hrange
    generalize e'.loaded = o' at hloaded hrange'
    cases hloaded with
    | none => exact .none
    | some h =>
      exact .some ((hrange _ rfl).forget_like (henvironment ▸ hrange' _ rfl) h.1 h.2)
  cycle := hcycle
  behaviors := by
    have hlength : e.behaviors.length = e'.behaviors.length := by
      rw [hr.behaviors, hr'.behaviors, henvironment]
    simp [reset, List.map_const', hlength]
  assigned := ha

namespace Like

/-- The graphs in use. -/
theorem exists_loaded (h : e.Like Same e') {l : Loaded} (hl : e.loaded = some l) :
    ∃ l', e'.loaded = some l' ∧ l.Like l' := by
  have hloaded := h.loaded
  rw [hl] at hloaded
  generalize e'.loaded = o at hloaded ⊢
  cases hloaded with
  | some hll => exact ⟨_, rfl, hll⟩

theorem loaded_eq_none (h : e.Like Same e') (hl : e.loaded = none) : e'.loaded = none := by
  have hloaded := h.loaded
  rw [hl] at hloaded
  generalize e'.loaded = o at hloaded
  cases hloaded
  rfl

/-- **Cycles of engines that are alike run alike.** -/
theorem traced (h : e.Like Same e') (hR : e.environment.IgnoresNotices Same) (hr : e.InRange)
    (hc : e.Complete) {l : Loaded} (hl : e.loaded = some l)
    (hroot : ∀ node, l.graph.options.at? l.root = some node → node.parameters.size = 0)
    {now : Nat} {trace trace' : List (Moment σ)} {e₁ e₁' : Engine σ}
    (ht : e.Traced now trace e₁) (ht' : e'.Traced now trace' e₁') :
    List.Forall₂ (Moment.Like e.environment Same) trace trace' ∧ e₁.Like Same e₁' := by
  obtain ⟨l', hl', hll⟩ := h.exists_loaded hl
  obtain ⟨m, htrace, rfl⟩ := ht.traces hl
  obtain ⟨m', htrace', rfl⟩ := ht'.traces hl'
  rw [← h.environment, ← hll.graph, ← h.cycle, ← hll.root] at htrace'
  have hm : Machine.Like ⟨e.environment, l.graph⟩ Same
      { e.machine l with assigned := PerDomain.ofFn fun _ => [] }
      { e'.machine l' with assigned := PerDomain.ofFn fun _ => [] } :=
    ⟨h.world, hll.length, hll.options, h.behaviors, rfl⟩
  have htask : (Task.option l.root).SameParameters
      { e.machine l with assigned := PerDomain.ofFn fun _ => [] }
      { e'.machine l' with assigned := PerDomain.ofFn fun _ => [] } := by
    intro a b ha hb
    obtain ⟨n, hn, hab⟩ := hll.options _ a b ha hb
    exact hab.parameters_eq (Parameters.sizes_eq_zero (hroot n hn))
  obtain ⟨hmoments, hend⟩ := htrace.alike hR (hr.loaded l hl).program (hc l hl) htrace' trivial
    (by simp [Task.owner?]) hm htask
  exact ⟨hmoments, h.limits, h.environment, hend.world,
    .some ⟨hll.graph, hll.root, hend.length, hend.options⟩, congrArg (· + 1) h.cycle,
    hend.behaviors, hend.assigned⟩

/-- Snapshots of engines that are alike are the same. -/
theorem activeBehaviors (h : e.Like Same e') (hR : e.environment.IgnoresNotices Same)
    (hr : e.InRange) (hr' : e'.InRange) : e.activeBehaviors.1 = e'.activeBehaviors.1 ∧
      Same e.activeBehaviors.2.world e'.activeBehaviors.2.world := by
  obtain ⟨⟨entries, e₁⟩, hsnapshot⟩ := activeBehaviors?_succeeds hr
  obtain ⟨⟨entries', e₁'⟩, hsnapshot'⟩ := activeBehaviors?_succeeds hr'
  rw [Engine.activeBehaviors, Engine.activeBehaviors, hsnapshot, hsnapshot', Option.getD_some,
    Option.getD_some]
  rw [activeBehaviors?] at hsnapshot hsnapshot'
  cases hl : e.loaded with
  | none =>
    have hl' := h.loaded_eq_none hl
    rw [hl] at hsnapshot
    rw [hl'] at hsnapshot'
    cases hsnapshot
    cases hsnapshot'
    exact ⟨rfl, h.world⟩
  | some l =>
    obtain ⟨l', hl', hll⟩ := h.exists_loaded hl
    simp only [hl] at hsnapshot
    simp only [hl', ← h.cycle] at hsnapshot'
    split at hsnapshot
    · next hc =>
      rw [if_pos hc] at hsnapshot'
      cases hsnapshot
      cases hsnapshot'
      exact ⟨rfl, h.world⟩
    · next hc =>
      rw [if_neg hc, ← h.environment, ← hll.graph, ← hll.root] at hsnapshot'
      obtain ⟨⟨_, world⟩, hwalk, hsnapshot⟩ := Option.bind_eq_some_iff.1 hsnapshot
      obtain ⟨⟨_, world'⟩, hwalk', hsnapshot'⟩ := Option.bind_eq_some_iff.1 hsnapshot'
      cases hsnapshot
      cases hsnapshot'
      refine activeBehaviors?_alike hR.showsAlike (fun i a b ha hb => ?_) h.world hwalk hwalk'
      obtain ⟨n, -, hab⟩ := hll.options i a b ha hb
      exact hab.showsAlike e.cycle

/-- A call that both engines refuse. -/
theorem refused (h : e.Like Same e') (he : e.InRange) (he' : e'.InRange) {c : Call σ}
    (hc : c.needsGraph = true) (hr : e.Refuses c) (hr' : e'.Refuses c) :
    (e.call c).Like Same (e'.call c) := by
  rw [call_of_refuses he hc hr, call_of_refuses he' hc hr']
  exact h

/-- If there is no graph, both engines refuse the calls that need one. -/
theorem of_no_graph (h : e.Like Same e') (hr : e.InRange) (hr' : e'.InRange) {c : Call σ}
    (hc : c.needsGraph = true) (hl : e.loaded = none) : (e.call c).Like Same (e'.call c) :=
  h.refused hr hr' hc (refuses_of_no_graph hr hl hc)
    (refuses_of_no_graph hr' (h.loaded_eq_none hl) hc)

theorem execute (h : e.Like Same e') (hR : e.environment.IgnoresNotices Same) (hr : e.InRange)
    (hr' : e'.InRange) (hc : e.Complete) {now : Nat} (hroots : e.PlainRoots [.execute now]) :
    (e.call (.execute now)).Like Same (e'.call (.execute now)) := by
  cases hl : e.loaded with
  | none => exact h.of_no_graph hr hr' rfl hl
  | some l =>
    obtain ⟨l', hl', -⟩ := h.exists_loaded hl
    obtain ⟨trace, e₁, ht⟩ := hr.exists_traced hl now
    obtain ⟨trace', e₁', ht'⟩ := hr'.exists_traced hl' now
    rw [ht.call_eq, ht'.call_eq]
    exact (h.traced hR hr hc hl (fun node => hroots [] now [] l node rfl hl) ht ht').2

theorem reset (h : e.Like Same e') (hr : e.InRange) (hr' : e'.InRange) :
    e.reset.Like Same e'.reset := by
  refine reset_like h.limits h.environment h.world h.cycle h.assigned hr hr' ?_
  have hloaded := h.loaded
  generalize e.loaded = o at hloaded ⊢
  generalize e'.loaded = o' at hloaded ⊢
  cases hloaded with
  | none => exact .none
  | some hll => exact .some ⟨hll.graph, hll.root⟩

/-- The same graph is built from the same source, or none. -/
theorem create (h : e.Like Same e') (hr : e.InRange) (hr' : e'.InRange) (source : String) :
    (e.create source).2.Like Same (e'.create source).2 := by
  have hsource : Graph.ofSource e'.limits e'.environment source =
      Graph.ofSource e.limits e.environment source := by rw [h.limits, h.environment]
  rw [Engine.create, Engine.create, hsource]
  cases hg : Graph.ofSource e.limits e.environment source with
  | error => exact { h with loaded := .none }
  | ok g =>
    have hrange := Loaded.InRange.ofGraph (Graph.fits_of_ofSource hg)
    refine reset_like h.limits h.environment h.world h.cycle h.assigned ⟨hr.behaviors, ?_⟩
      ⟨hr'.behaviors, ?_⟩ (.some ⟨rfl, rfl⟩)
    · rintro _ ⟨⟩
      exact hrange
    · rintro _ ⟨⟩
      exact h.environment ▸ hrange

theorem selectAgent (h : e.Like Same e') (hr : e.InRange) (hr' : e'.InRange) (name : String) :
    (e.call (.selectAgent name)).Like Same (e'.call (.selectAgent name)) := by
  cases hl : e.loaded with
  | none => exact h.of_no_graph hr hr' rfl hl
  | some l =>
    obtain ⟨l', hl', hll⟩ := h.exists_loaded hl
    cases hf : l.graph.agents.find? name with
    | none =>
      exact h.refused hr hr' rfl (refuses_selectAgent_iff.2 (by simpa [hl] using hf))
        (refuses_selectAgent_iff.2 (by simpa [hl', ← hll.graph] using hf))
    | some found =>
      rw [call_selectAgent hl hf, call_selectAgent hl' (hll.graph ▸ hf)]
      exact { h with loaded := .some { hll with root := rfl } }

theorem selectRoot (h : e.Like Same e') (hr : e.InRange) (hr' : e'.InRange) (name : String) :
    (e.call (.selectRoot name)).Like Same (e'.call (.selectRoot name)) := by
  cases hl : e.loaded with
  | none => exact h.of_no_graph hr hr' rfl hl
  | some l =>
    obtain ⟨l', hl', hll⟩ := h.exists_loaded hl
    cases hf : l.graph.options.position? name with
    | none =>
      exact h.refused hr hr' rfl (refuses_selectRoot_iff.2 (by simpa [hl] using hf))
        (refuses_selectRoot_iff.2 (by simpa [hl', ← hll.graph] using hf))
    | some root =>
      rw [call_selectRoot hl hf, call_selectRoot hl' (hll.graph ▸ hf)]
      exact { h with loaded := .some { hll with root := rfl } }

/-- **Whatever call is taken, engines that are alike stay alike.** -/
theorem call (h : e.Like Same e') (hR : e.environment.IgnoresNotices Same) (hr : e.InRange)
    (hr' : e'.InRange) (hc : e.Complete) {c : Call σ}
    (hhost : ∀ f, c = .host f → ∀ w w', Same w w' → Same (f w) (f w'))
    (hroots : e.PlainRoots [c]) : (e.call c).Like Same (e'.call c) := by
  cases c with
  | execute => exact h.execute hR hr hr' hc hroots
  | reset => exact h.reset hr hr'
  | create source => exact h.create hr hr' source
  | selectAgent name => exact h.selectAgent hr hr' name
  | selectRoot name => exact h.selectRoot hr hr' name
  | resetOutputs => exact { h with assigned := rfl }
  | activeBehaviors =>
    change e.activeBehaviors.2.Like Same e'.activeBehaviors.2
    rw [e.activeBehaviors_eq, e'.activeBehaviors_eq]
    exact { h with world := (h.activeBehaviors hR hr hr').2 }
  | host f => exact { h with world := hhost f rfl _ _ h.world }

end Like

/-! ### Sequences of calls -/

namespace PlainRoots

variable {rest : List (Call σ)}

theorem of_append (calls : List (Call σ)) (h : e.PlainRoots (calls ++ rest)) :
    e.PlainRoots calls := by
  rintro before now after l node rfl
  exact h before now (after ++ rest) l node (by simp)

theorem after (calls : List (Call σ)) (h : e.PlainRoots (calls ++ rest)) :
    (e.after calls).PlainRoots rest := by
  rintro before now after l node rfl hl
  refine h (calls ++ before) now after l node (by simp) ?_
  rw [Engine.after, List.foldl_append]
  exact hl

end PlainRoots

/-- **Engines that are alike stay alike**, whatever calls are taken. -/
theorem Like.after (h : e.Like Same e') (hR : e.environment.IgnoresNotices Same) (hr : e.InRange)
    (hr' : e'.InRange) (hc : e.Complete) {calls : List (Call σ)}
    (hhost : ∀ f, .host f ∈ calls → ∀ w w', Same w w' → Same (f w) (f w'))
    (hroots : e.PlainRoots calls) : (e.after calls).Like Same (e'.after calls) := by
  induction calls generalizing e e' with
  | nil => exact h
  | cons c calls ih =>
    have hstep := h.call hR hr hr' hc (fun f hf => hhost f (hf ▸ List.mem_cons_self))
      (.of_append [c] hroots)
    refine ih hstep ?_ (hr.step (e.steps_call c)) (hr'.step (e'.steps_call c))
      (hc.step (e.steps_call c)) (fun f hf => hhost f (List.mem_cons_of_mem _ hf))
      (.after [c] hroots)
    rw [(e.steps_call c).environment_eq]
    exact hR

/-! ### What can be seen -/

/-- **The same can be seen of two engines**: which outputs were assigned and what their values are,
which behaviors ran, and the snapshot. -/
structure SeenAlike (e e' : Engine σ) : Prop where
  wasSet : ∀ d k, e.wasSet d k = e'.wasSet d k
  behaviorRan : ∀ b, e.behaviorRan b = e'.behaviorRan b
  activeBehaviors : e.activeBehaviors.1 = e'.activeBehaviors.1
  readOutput : ∀ (d : Domain) (k : Nat) (symbol : OutputSymbol σ d),
    (e.environment.symbols.outputs.get d).at? k = some symbol →
    (e.readOutput symbol).1 = (e'.readOutput symbol).1

/-- **A cycle runs alike on two engines**: it runs on both or on neither; it enters the same options
in the same states, runs the same behaviors and makes the same assignments; all expressions have the
same values, all arguments are the same; and the same can be seen afterwards. -/
def CyclesAlike (Same : World σ → World σ → Prop) (e e' : Engine σ) (now : Nat) : Prop :=
  ((∃ trace e₁, e.Traced now trace e₁) ↔ ∃ trace' e₁', e'.Traced now trace' e₁') ∧
  ∀ l l' trace trace' e₁ e₁', e.loaded = some l → e'.loaded = some l' →
    e.Traced now trace e₁ → e'.Traced now trace' e₁' →
    List.Forall₂ (Moment.Like e.environment Same) trace trace' ∧
    traceYields ⟨e.environment, l.graph⟩ trace = traceYields ⟨e'.environment, l'.graph⟩ trace' ∧
    e₁.SeenAlike e₁'

namespace Like

/-- The same can be seen of engines that are alike. -/
theorem seenAlike (h : e.Like Same e') (hR : e.environment.IgnoresNotices Same) (hr : e.InRange)
    (hr' : e'.InRange) : e.SeenAlike e' where
  wasSet := fun d k => by rw [wasSet, wasSet, h.assigned]
  behaviorRan := fun b => by rw [behaviorRan, behaviorRan, h.behaviors, h.cycle]
  activeBehaviors := (h.activeBehaviors hR hr hr').1
  readOutput := fun d k symbol hk => (hR.fetch d k symbol hk _ _ h.world).1

/-- Cycles of engines that are alike run alike. -/
theorem cyclesAlike (h : e.Like Same e') (hR : e.environment.IgnoresNotices Same) (hr : e.InRange)
    (hr' : e'.InRange) (hc : e.Complete) {now : Nat} (hroots : e.PlainRoots [.execute now]) :
    e.CyclesAlike Same e' now := by
  refine ⟨⟨?_, ?_⟩, fun l l' trace trace' e₁ e₁' hl hl' ht ht' => ?_⟩
  · rintro ⟨trace, e₁, -, l, -, hl, -⟩
    obtain ⟨l', hl', -⟩ := h.exists_loaded hl
    exact hr'.exists_traced hl' now
  · rintro ⟨trace', e₁', -, l', -, hl', -⟩
    cases hl : e.loaded with
    | none => cases (h.loaded_eq_none hl).symm.trans hl'
    | some l => exact hr.exists_traced hl now
  · obtain ⟨l'', hl'', hll⟩ := h.exists_loaded hl
    obtain rfl := Option.some_inj.1 (hl'.symm.trans hl'')
    obtain ⟨hmoments, hend⟩ := h.traced hR hr hc hl
      (fun node => hroots [] now [] l node rfl hl) ht ht'
    rw [← h.environment, ← hll.graph]
    have henvironment : e₁.environment = e.environment := by
      rw [← ht.call_eq]
      exact (e.steps_call _).environment_eq
    refine ⟨hmoments, traceYields_eq hR hmoments, hend.seenAlike ?_ ?_ ?_⟩
    · rw [henvironment]
      exact hR
    · rw [← ht.call_eq]
      exact hr.step (e.steps_call _)
    · rw [← ht'.call_eq]
      exact hr'.step (e'.steps_call _)

end Like

/-- After a reset an engine is like one that has built its graph again and selected the same
root. -/
theorem reset_like_create (hsame : ∀ w, Same w w) (hr : e.InRange) {l : Loaded}
    (hl : e.loaded = some l) {source : String}
    (hsource : Graph.ofSource e.limits e.environment source = .ok l.graph) {name : String}
    (hname : l.graph.options.name? l.root = some name) :
    (e.after [.reset]).Like Same (e.after [.create source, .selectRoot name]) := by
  have hrebuilt : e.after [.create source, .selectRoot name] = { e with
      loaded := some { Loaded.ofGraph l.graph with agent := none, root := l.root } }.reset := by
    have hcreate : e.call (.create source) =
        { e with loaded := some (Loaded.ofGraph l.graph) }.reset := by
      rw [call, create, hsource]
    change (e.call (.create source)).call (.selectRoot name) = _
    rw [hcreate]
    exact call_selectRoot (l := { Loaded.ofGraph l.graph with
      options := (Loaded.ofGraph l.graph).options.map Activation.forget }) rfl
      (Registry.position?_eq_some_iff.2 hname)
  rw [hrebuilt]
  have hrange := Loaded.InRange.ofGraph (Graph.fits_of_ofSource hsource)
  refine reset_like rfl rfl (hsame _) rfl rfl hr ⟨hr.behaviors, ?_⟩ ?_
  · rintro _ ⟨⟩
    exact ⟨hrange.program, (hr.loaded l hl).root, by simp, hrange.length, hrange.options⟩
  · rw [hl]
    exact .some ⟨rfl, rfl⟩

/-- **A reset is as good as building the graph again** and selecting the same root, whatever calls
an engine has taken before, and whatever calls it takes afterwards: nothing that can be seen, and
nothing that any cycle computes, tells the one from the other. -/
theorem reset_as_rebuilding (limits : Limits) (environment : Environment σ) (world : World σ)
    (calls : List (Call σ)) (l : Loaded)
    (hl : ((Engine.new limits environment world).after calls).loaded = some l) (source : String)
    (hsource : Graph.ofSource limits environment source = .ok l.graph) (name : String)
    (hname : l.graph.options.name? l.root = some name) (Same : World σ → World σ → Prop)
    (hR : environment.IgnoresNotices Same) (later : List (Call σ))
    (hhost : ∀ f, .host f ∈ later → ∀ w w', Same w w' → Same (f w) (f w'))
    (hroots : (((Engine.new limits environment world).after calls).after [.reset]).PlainRoots later)
    (before rest : List (Call σ)) (hlater : later = before ++ rest) :
    (((Engine.new limits environment world).after calls).after (.reset :: before)).SeenAlike
      (((Engine.new limits environment world).after calls).after
        (.create source :: .selectRoot name :: before)) ∧
    ∀ now rest', rest = .execute now :: rest' →
      (((Engine.new limits environment world).after calls).after
        (.reset :: before)).CyclesAlike Same
        (((Engine.new limits environment world).after calls).after
          (.create source :: .selectRoot name :: before)) now := by
  have hr := (InRange.new limits environment world).after calls
  have hc := (Complete.new limits environment world).after calls
  have henvironment := after_environment (Engine.new limits environment world) calls
  have hlimits := after_limits (Engine.new limits environment world) calls
  generalize (Engine.new limits environment world).after calls = e
    at hl hroots hr hc henvironment hlimits ⊢
  subst hlater
  have hbase := reset_like_create hR.equivalence.refl hr hl
    (by rw [hlimits, henvironment]; exact hsource) hname
  have hR : ∀ calls, (e.after calls).environment.IgnoresNotices Same := by
    intro calls
    rw [after_environment, henvironment]
    exact hR
  have hlike := hbase.after (hR _) (hr.after _) (hr.after _) (hc.after _)
    (fun f hf => hhost f (List.mem_append_left _ hf)) (.of_append _ hroots)
  refine ⟨hlike.seenAlike (hR (.reset :: before)) (hr.after (.reset :: before))
    (hr.after (.create source :: .selectRoot name :: before)), fun now rest' hrest => ?_⟩
  subst hrest
  exact hlike.cyclesAlike (hR (.reset :: before)) (hr.after (.reset :: before))
    (hr.after (.create source :: .selectRoot name :: before)) (hc.after (.reset :: before))
    (.of_append [.execute now] (.after _ hroots))

/-- A door with a bell, whose host counts how often it rings and how often notice is given. -/
def door : Environment (Nat × Nat) where
  symbols := {
    enumerations := Registry.empty
    inputs := ⟨Registry.empty, ⟨[("asked", ⟨(), .getter fun w =>
      (w.read .boolean "wanted" == decide (w.host.1 % 2 = 0), w),
      ⟨Registry.empty, ⟨[("wanted", ⟨(), "wanted"⟩)], by simp⟩, Registry.empty⟩,
      some fun w => { w with host := (w.host.1, w.host.2 + 1) }⟩)], by simp⟩, Registry.empty⟩
    outputs := ⟨Registry.empty, ⟨[("lit", ⟨(), .cell "lit"⟩)], by simp⟩, Registry.empty⟩ }
  behaviors := ⟨[("ring", ⟨Parameters.none,
    fun w => { w with host := (w.host.1 + 1, w.host.2) }, id⟩)], by simp⟩
  sound := by decide

/-- A source with an option that has left its initial state after one cycle. -/
def doorSource : String :=
  "2 main 0 chime 1 b on main 2 day night day day 0 2 b lit i asked 1 b wanted v true " ++
  "o chime 1 b on o lit t night night 0 1 b lit v false i o lit t night t day " ++
  "chime 1 s s s 0 1 a ring 0 t s 0"

/-- An engine with a door. -/
def doorEngine : Engine (Nat × Nat) := Engine.new Limits.standard door ⟨Cells.empty, (0, 0)⟩

/-- Two worlds are the same but for the number of notices. -/
def SameDoor (w w' : World (Nat × Nat)) : Prop := w.cells = w'.cells ∧ w.host.1 = w'.host.1

theorem input_at?_door {d : Domain} {k : Nat} {symbol : InputSymbol (Nat × Nat) d}
    (h : (door.symbols.inputs.get d).at? k = some symbol) : d = .boolean ∧ k = 0 := by
  cases d with
  | decimal | enumerated => cases h
  | boolean =>
    cases k with
    | zero => exact ⟨rfl, rfl⟩
    | succ k => cases h

theorem output_at?_door {d : Domain} {k : Nat} {symbol : OutputSymbol (Nat × Nat) d}
    (h : (door.symbols.outputs.get d).at? k = some symbol) : d = .boolean ∧ k = 0 := by
  cases d with
  | decimal | enumerated => cases h
  | boolean =>
    cases k with
    | zero => exact ⟨rfl, rfl⟩
    | succ k => cases h

/-- Nothing depends on the number of notices. -/
theorem ignoresNotices_door : door.IgnoresNotices SameDoor where
  equivalence := ⟨fun _ => ⟨rfl, rfl⟩, fun h => ⟨h.1.symm, h.2.symm⟩,
    fun h h' => ⟨h.1.trans h'.1, h.2.trans h'.2⟩⟩
  notify := by
    intro callee w
    cases callee with
    | option => exact ⟨rfl, rfl⟩
    | input d k =>
      cases hk : (door.symbols.inputs.get d).at? k with
      | none => simp [Environment.notify, hk, SameDoor]
      | some symbol =>
        obtain ⟨rfl, rfl⟩ := input_at?_door hk
        exact ⟨rfl, rfl⟩
    | behavior k =>
      cases k with
      | zero => exact ⟨rfl, rfl⟩
      | succ k => exact ⟨rfl, rfl⟩
  input := by
    intro d k symbol hk w w' hw
    obtain ⟨rfl, rfl⟩ := input_at?_door hk
    cases hk
    exact ⟨by simp [InputBinding.read, World.read, hw.1, hw.2], hw⟩
  fetch := by
    intro d k symbol hk w w' hw
    obtain ⟨rfl, rfl⟩ := output_at?_door hk
    cases hk
    exact ⟨congrArg (·.read .boolean "lit") hw.1, hw⟩
  store := by
    intro d k symbol hk x w w' hw
    obtain ⟨rfl, rfl⟩ := output_at?_door hk
    cases hk
    exact ⟨congrArg (·.write .boolean "lit" x) hw.1, hw.2⟩
  run := by
    intro k behavior hb w w' hw
    cases k with
    | zero =>
      cases hb
      exact ⟨hw.1, congrArg (· + 1) hw.2⟩
    | succ k => cases hb
  writeSlot := fun _ d _ cell _ x _ _ hw => ⟨congrArg (·.write d cell x) hw.1, hw.2⟩
  readSlot := fun _ d _ cell _ _ _ hw => congrArg (·.read d cell) hw.1

/-- After a reset the call site remembers its argument, so no notice is given again; the graph that
is built again gives notice, and nothing else tells the two. -/
example : (doorEngine.after [.create doorSource, .execute 5, .reset, .execute 20]).world.host =
      (2, 1) ∧
    (doorEngine.after [.create doorSource, .execute 5, .create doorSource, .selectRoot "main",
      .execute 20]).world.host = (2, 2) := by
  decide +kernel

theorem reset_as_rebuilding_door :
    ((doorEngine.after [.create doorSource, .execute 5]).after
      [.reset, .host (·.write .boolean "lit" true), .execute 20]).SeenAlike
      ((doorEngine.after [.create doorSource, .execute 5]).after [.create doorSource,
        .selectRoot "main", .host (·.write .boolean "lit" true), .execute 20]) ∧
    ((doorEngine.after [.create doorSource, .execute 5]).after
      [.reset, .host (·.write .boolean "lit" true), .execute 20]).CyclesAlike SameDoor
      ((doorEngine.after [.create doorSource, .execute 5]).after [.create doorSource,
        .selectRoot "main", .host (·.write .boolean "lit" true), .execute 20]) 30 := by
  have hroot : (doorEngine.after [.create doorSource, .execute 5]).rootName? = some "main" := by
    decide +kernel
  rw [rootName?] at hroot
  obtain ⟨l, hl, hname⟩ := Option.bind_eq_some_iff.1 hroot
  obtain ⟨source, hlast, hsource⟩ := exists_source (e := doorEngine) rfl hl
  have hlast' : Call.lastSource? ([.create doorSource, .execute 5] : List (Call (Nat × Nat))) =
      some doorSource := rfl
  obtain rfl := Option.some_inj.1 (hlast'.symm.trans hlast)
  have hroots : ((doorEngine.after [.create doorSource, .execute 5]).after [.reset]).PlainRoots
      [.host (·.write .boolean "lit" true), .execute 20, .execute 30] := by
    rintro before now rest l node hcalls hl hn
    have hplain : ∀ n < 3, ((((doorEngine.after [.create doorSource, .execute 5]).after
        [.reset]).after ([.host (·.write .boolean "lit" true), .execute 20, .execute 30].take
        n)).loaded.bind fun l => (l.graph.options.at? l.root).map fun node =>
          node.parameters.size) ∈ [none, some 0] := by
      decide +kernel
    have hlength : before.length < 3 := by
      have := congrArg List.length hcalls
      simp at this
      omega
    have h := hplain before.length hlength
    rw [hcalls, List.take_left, hl] at h
    simpa [hn] using h
  have hlaw := reset_as_rebuilding Limits.standard door ⟨Cells.empty, (0, 0)⟩ _ l hl doorSource
    hsource "main" hname SameDoor ignoresNotices_door
    [.host (·.write .boolean "lit" true), .execute 20, .execute 30]
    (fun f hf w w' hw => ?_) hroots [.host (·.write .boolean "lit" true), .execute 20]
    [.execute 30] rfl
  · exact ⟨hlaw.1, hlaw.2 30 [] rfl⟩
  · obtain rfl : f = (·.write .boolean "lit" true) := by simpa using hf
    exact ⟨congrArg (·.write .boolean "lit" true) hw.1, hw.2⟩

end Engine

end BehaviorEngine
