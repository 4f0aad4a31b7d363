import BehaviorEngine.Proofs.Cycle.Log
import BehaviorEngine.Proofs.Engine.Parameters

/-!
Journals. Of the calls that an engine has taken, a journal keeps what the cycles of the graph in use
have asked the host to do, in its order; with another graph it starts over. It settles what call
sites remember: how they were used last. Neither a reset nor another root makes them forget it.
-/

namespace BehaviorEngine

variable {σ : Type}

namespace Engine

variable {e e' : Engine σ} {now : Nat} {trace : List (Moment σ)} {past : List (HostEvent σ)}
  {calls : List (Call σ)}

/-! ### Logs of cycles -/

/-- **A cycle does what its log tells**, and uses the call sites of its graph at most once. -/
theorem Traced.logged {l : Loaded} (ht : e.Traced now trace e') (hl : e.loaded = some l)
    (hr : e.InRange) (hc : e.Complete) : ∃ l', e'.loaded = some l' ∧ l'.graph = l.graph ∧
      Logged e.environment l.graph.HasCall ⟨e.world, l.memory⟩
        (traceLog ⟨e.environment, l.graph⟩ trace) ⟨e'.world, l'.memory⟩ := by
  obtain ⟨m, htrace, rfl⟩ := ht.traces hl
  exact ⟨_, rfl, rfl,
    (htrace.logged (hr.loaded l hl).program (hc l hl) trivial nofun).mono fun _ h => h.1⟩

/-- In a cycle each basic behavior runs at most once. -/
theorem Traced.nodup_ran? {l : Loaded} (ht : e.Traced now trace e') (hl : e.loaded = some l)
    (hr : e.InRange) :
    ((traceLog ⟨e.environment, l.graph⟩ trace).filterMap HostEvent.ran?).Nodup := by
  obtain ⟨m, htrace, rfl⟩ := ht.traces hl
  rw [htrace.ran?_eq (hr.loaded l hl).program trivial]
  exact htrace.runs.nodup_behaved

/-! ### Journals -/

/-- **Some calls have a journal.** -/
inductive Journal (e : Engine σ) : List (Call σ) → List (HostEvent σ) → Prop
  | start : Journal e [] []
  | cycle {calls : List (Call σ)} {past : List (HostEvent σ)} {now : Nat}
      {trace : List (Moment σ)} {e' : Engine σ} {l : Loaded} (h : Journal e calls past)
      (hl : (e.after calls).loaded = some l) (hc : (e.after calls).Traced now trace e') :
      Journal e (calls ++ [.execute now]) (past ++ traceLog ⟨e.environment, l.graph⟩ trace)
  /-- There is no graph, so no cycle runs. -/
  | refuse {calls : List (Call σ)} {past : List (HostEvent σ)} {now : Nat} {error : Misuse}
      (h : Journal e calls past) (hc : ((e.after calls).execute now).1 = .error error) :
      Journal e (calls ++ [.execute now]) past
  | create {calls : List (Call σ)} {past : List (HostEvent σ)} (source : String)
      (h : Journal e calls past) : Journal e (calls ++ [.create source]) []
  | rest {calls : List (Call σ)} {past : List (HostEvent σ)} {call : Call σ}
      (h : Journal e calls past) (hx : ∀ now, call ≠ .execute now)
      (hc : ∀ source, call ≠ .create source) : Journal e (calls ++ [call]) past

/-- All calls have a journal. -/
theorem exists_journal (e : Engine σ) (calls : List (Call σ)) : ∃ past, e.Journal calls past := by
  induction calls using List.reverseRecOn with
  | nil => exact ⟨[], .start⟩
  | append_singleton calls c ih =>
    obtain ⟨past, h⟩ := ih
    by_cases hx : ∃ now, c = .execute now
    · obtain ⟨now, rfl⟩ := hx
      rcases he : (e.after calls).execute now with ⟨error | ⟨⟩, e'⟩
      · exact ⟨past, .refuse h (congrArg Prod.fst he)⟩
      · obtain ⟨trace, htrace⟩ := exists_traced he
        obtain ⟨-, l, -, hl, -⟩ := id htrace
        exact ⟨_, .cycle h hl htrace⟩
    · by_cases hc : ∃ source, c = .create source
      · obtain ⟨source, rfl⟩ := hc
        exact ⟨[], .create source h⟩
      · exact ⟨past, .rest h (fun now e => hx ⟨now, e⟩) fun source e => hc ⟨source, e⟩⟩

/-- If there is a graph, some calls have a journal, and the next cycle has a trace. -/
theorem InRange.exists_journal_traced (hr : e.InRange) {l : Loaded}
    (hl : (e.after calls).loaded = some l) (now : Nat) : ∃ past trace e', e.Journal calls past ∧
      (e.after calls).Traced now trace e' := by
  obtain ⟨past, hpast⟩ := exists_journal e calls
  obtain ⟨trace, e', ht⟩ := (hr.after calls).exists_traced hl now
  exact ⟨past, trace, e', hpast, ht⟩

/-! ### What call sites remember -/

/-- A new graph has nothing to remember. -/
theorem memory_create {source : String} {l : Loaded}
    (hl : (e.call (.create source)).loaded = some l) : l.memory = Memory.empty := by
  rw [call, create] at hl
  cases hg : Graph.ofSource e.limits e.environment source with
  | error => simp [hg] at hl
  | ok g =>
    simp only [hg, Engine.reset, Option.map_some, Option.some_inj] at hl
    subst hl
    rfl

/-- Calls that neither run a cycle nor load a graph leave the graph and the memory as they are. -/
theorem loaded_rest {c : Call σ} (hx : ∀ now, c ≠ .execute now)
    (hc : ∀ source, c ≠ .create source) {l' : Loaded} (hl' : (e.call c).loaded = some l') :
    ∃ l, e.loaded = some l ∧ l'.graph = l.graph ∧ l'.memory = l.memory := by
  cases c with
  | execute now => exact absurd rfl (hx now)
  | create source => exact absurd rfl (hc source)
  | reset =>
    obtain ⟨l, hl, rfl⟩ := Option.map_eq_some_iff.1 hl'
    exact ⟨l, hl, rfl, rfl⟩
  | selectAgent name =>
    rw [call] at hl'
    obtain ⟨-, _, he⟩ | ⟨l, agent, root, hl, -, he⟩ := e.selectAgent_cases name
    · rw [he] at hl'
      exact ⟨l', hl', rfl, rfl⟩
    · rw [he] at hl'
      cases hl'
      exact ⟨l, hl, rfl, rfl⟩
  | selectRoot name =>
    rw [call] at hl'
    obtain ⟨-, _, he⟩ | ⟨l, root, hl, -, he⟩ := e.selectRoot_cases name
    · rw [he] at hl'
      exact ⟨l', hl', rfl, rfl⟩
    · rw [he] at hl'
      cases hl'
      exact ⟨l, hl, rfl, rfl⟩
  | activeBehaviors =>
    rw [call, e.activeBehaviors_eq] at hl'
    exact ⟨l', hl', rfl, rfl⟩
  | resetOutputs | host => exact ⟨l', hl', rfl, rfl⟩

/-- **What holds of all cycles holds of a journal**: events that are told of the graph in use. -/
theorem Journal.forall_mem {P : Graph → HostEvent σ → Prop} (h : e.Journal calls past)
    (hr : e.InRange) (hc : e.Complete)
    (hP : ∀ (e₁ e' : Engine σ) (l : Loaded) (now : Nat) (trace : List (Moment σ)),
      e₁.environment = e.environment → e₁.InRange → e₁.Complete → e₁.loaded = some l →
      e₁.Traced now trace e' → ∀ event ∈ traceLog ⟨e.environment, l.graph⟩ trace,
        P l.graph event) :
    ∀ l ∈ (e.after calls).loaded, ∀ event ∈ past, P l.graph event := by
  induction h with
  | start => exact fun _ _ => nofun
  | @cycle calls past now trace e' l _ hl ht ih =>
    have hP' := hP _ e' l now trace (after_environment e calls) (hr.after calls)
      (hc.after calls) hl ht
    rw [after_append, call, ht.1]
    obtain ⟨m, -, rfl⟩ := ht.traces hl
    rintro _ ⟨⟩ event he
    rcases List.mem_append.1 he with he | he
    · exact ih l hl event he
    · exact hP' event he
  | refuse _ he ih =>
    obtain ⟨_, hcall⟩ := call_execute_of_error he
    rw [after_append, hcall]
    exact ih
  | create => exact fun _ _ => nofun
  | rest _ hx hc ih =>
    rw [after_append]
    intro l' hl'
    obtain ⟨l, hl, hg, -⟩ := loaded_rest hx hc hl'
    rw [hg]
    exact ih l hl

/-- Call sites are used with all arguments that they stand for. -/
theorem Journal.hasCall (h : e.Journal calls past) (hr : e.InRange) (hc : e.Complete) {l : Loaded}
    (hl : (e.after calls).loaded = some l) {site : Path} {callee : Callee}
    {arguments : List Argument} {w : World σ} (hu : .used site callee arguments w ∈ past) :
    l.graph.HasCall ⟨site, callee, arguments.map Argument.key⟩ ∧
      e.environment.Binds callee arguments := by
  refine h.forall_mem (P := fun g event => ∀ site callee arguments w,
    event = .used site callee arguments w → g.HasCall ⟨site, callee, arguments.map Argument.key⟩ ∧
      e.environment.Binds callee arguments) hr hc ?_ l hl _ hu site callee arguments w rfl
  rintro e₁ e' l now trace henvironment hr hc hl ht _ hmem site callee arguments w rfl
  obtain ⟨l', -, -, hlogged⟩ := ht.logged hl hr hc
  rw [henvironment] at hlogged
  exact hlogged.of_mem_used hmem

/-- **Call sites remember how they were used last**, whatever calls the engine has taken. -/
theorem Journal.memory_eq (h : e.Journal calls past) (hr : e.InRange) (hc : e.Complete)
    (hn : e.loaded = none) {l : Loaded} (hl : (e.after calls).loaded = some l) (site : Path) :
    l.memory.get? site = (lastUse site past).map Prod.fst := by
  induction h generalizing l with
  | start => cases hn.symm.trans hl
  | @cycle calls past now trace e' l₀ _ hl₀ ht ih =>
    obtain ⟨l', hl', -, hlogged⟩ := ht.logged hl₀ (hr.after calls) (hc.after calls)
    rw [after_append, call, ht.1] at hl
    obtain rfl := Option.some_inj.1 (hl.symm.trans hl')
    rw [after_environment] at hlogged
    rw [hlogged.memory_eq, ih hl₀, lastUse_append, Option.map_or]
  | refuse _ he ih =>
    obtain ⟨_, hcall⟩ := call_execute_of_error he
    rw [after_append, hcall] at hl
    exact ih hl
  | create =>
    rw [after_append] at hl
    rw [memory_create hl]
    rfl
  | rest _ hx hc ih =>
    rw [after_append] at hl
    obtain ⟨l₀, hl₀, -, hm⟩ := loaded_rest hx hc hl
    rw [hm]
    exact ih hl₀

end Engine

end BehaviorEngine
