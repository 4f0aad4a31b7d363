import BehaviorEngine.Proofs.Cycle.Frames
import BehaviorEngine.Proofs.Engine.Journal
import BehaviorEngine.Proofs.Engine.Outputs

/-!
A cycle touches only what it runs. Options, basic behaviors, output symbols and call sites that take
no part in a cycle are after it what they were before, if the cells that symbols and parameters are
bound to belong to the engine.
-/

namespace BehaviorEngine

namespace Engine

variable {σ : Type} {e e' : Engine σ} {now : Nat} {trace : List (Moment σ)} {l l' : Loaded}

/-- **What a cycle leaves alone** that takes the engine `e` to the engine `e'`. -/
structure Frame (e : Engine σ) (trace : List (Moment σ)) (e' : Engine σ) (l l' : Loaded) :
    Prop where
  /-- An option that does not run keeps its states, all times, and its parameters. -/
  idle : ∀ i, (∀ n k time stateTime, .enters n i k time stateTime ∉ trace) →
    l'.options[i]? = l.options[i]?
  /-- An option that runs keeps the times of its states, except for the state that ran, which is the
  initial one if the option starts over, and for the state that it turns to. -/
  ran : ∀ n i k time stateTime, .enters n i k time stateTime ∈ trace → ∃ node a a',
    l.graph.options.at? i = some node ∧ l.options[i]? = some a ∧ l'.options[i]? = some a' ∧
    a'.executed = k ∧ (a.continues e'.cycle = false → k = node.initial) ∧
    ∀ j, a'.clocks[j]? ≠ a.clocks[j]? → j = k ∨ j = a'.active ∧ a'.active ≠ k
  /-- A basic behavior that is not asked to run keeps the cycle of its last run and its slots. -/
  behaviors : ∀ b, (∀ n, .requests n b ∉ trace) → e'.behaviors[b]? = e.behaviors[b]? ∧
    ∀ (d : Domain) (i : Nat) (slot : String),
      e.environment.slot? (.behavior b) d i = some slot →
      e'.world.read d slot = e.world.read d slot
  /-- For an output symbol that is not assigned nothing is stored, and it keeps its value if that is
  in a cell, or if the host settles it by what is stored. -/
  outputs : ∀ (d : Domain) (k : Nat) (symbol : OutputSymbol σ d),
    (e.environment.symbols.outputs.get d).at? k = some symbol → e'.wasSet d k = false →
    (∀ x, .stored d k x ∉ traceLog ⟨e.environment, l.graph⟩ trace) ∧
    ((∃ cell, symbol.binding = .cell cell) ∨
        e.environment.Settles (.output d k) (fun w => (symbol.binding.read w).1) →
      (e'.readOutput symbol).1 = (e.readOutput symbol).1)
  /-- A call site that is not evaluated remembers what it did. -/
  memory : ∀ site, (∀ callee arguments w,
      .used site callee arguments w ∉ traceLog ⟨e.environment, l.graph⟩ trace) →
    l'.memory.get? site = l.memory.get? site

/-- An option that a cycle does not enter is not touched. -/
theorem Traced.options_idle (ht : e.Traced now trace e') (hl : e.loaded = some l) (hp : e.Past)
    (hl' : e'.loaded = some l') {i : Nat}
    (hi : ∀ n k time stateTime, .enters n i k time stateTime ∉ trace) :
    l'.options[i]? = l.options[i]? := by
  obtain ⟨m, htrace, rfl⟩ := ht.traces hl
  obtain rfl := Option.some_inj.1 hl'
  have hunran : ¬ m.Ran ⟨e.cycle + 1, now⟩ i := by
    intro hran
    obtain ⟨n, k, time, stateTime, hmem⟩ := htrace.enters_iff.2 ⟨hp.not_ran hl now i, hran⟩
    exact hi n k time stateTime hmem
  change m.options[i]? = l.options[i]?
  cases hb : m.options[i]? with
  | none =>
    have hlength : m.options.length = l.options.length := htrace.runs.length_eq
    rw [List.getElem?_eq_none_iff, hlength] at hb
    exact (List.getElem?_eq_none hb).symm
  | some b =>
    have hr : b.ranIn (e.cycle + 1) = false := by
      rw [← Bool.not_eq_true]
      exact fun hr => hunran ⟨b, hb, hr⟩
    exact (htrace.runs.unran hb hr).symm

/-- An option that a cycle enters changes two clocks at most. -/
theorem Traced.clocks_ran (ht : e.Traced now trace e') (hl : e.loaded = some l) (hp : e.Past)
    (hl' : e'.loaded = some l') {n i k time stateTime : Nat}
    (hx : .enters n i k time stateTime ∈ trace) : ∃ node a a',
      l.graph.options.at? i = some node ∧ l.options[i]? = some a ∧ l'.options[i]? = some a' ∧
      a'.executed = k ∧ (a.continues e'.cycle = false → k = node.initial) ∧
      ∀ j, a'.clocks[j]? ≠ a.clocks[j]? → j = k ∨ j = a'.active ∧ a'.active ≠ k := by
  obtain ⟨m, htrace, rfl⟩ := ht.traces hl
  obtain rfl := Option.some_inj.1 hl'
  obtain ⟨a', ha', hran, rfl, -⟩ := htrace.agrees nofun _ hx i rfl
  obtain ⟨node, state, next, a, ha, hturns, -⟩ :=
    htrace.turns ha' hran (hp.not_ran hl now i)
  refine ⟨node, a, a', hturns.node_eq, ha, ha', rfl, fun hc => ?_, fun j hj => ?_⟩
  · rw [hturns.executed_eq, Activation.start_executed]
    exact if_neg (by simpa using hc)
  · by_contra hne
    push Not at hne
    exact hj (hturns.clocks_eq_of_ne hne.1 hne.2)

/-- The slots of a basic behavior are written only if it is asked to run. -/
theorem Traced.slot_kept (ht : e.Traced now trace e') (hl : e.loaded = some l) (hr : e.InRange)
    (hc : e.Complete) (hy : e.environment.Unshared) {b : Nat} (hb : ∀ n, .requests n b ∉ trace)
    {d : Domain} {i : Nat} {slot : String}
    (hslot : e.environment.slot? (.behavior b) d i = some slot) :
    e'.world.read d slot = e.world.read d slot := by
  obtain ⟨l', -, -, hlogged⟩ := ht.logged hl hr hc
  obtain ⟨m, htrace, -⟩ := ht.traces hl
  have hcell : e.environment.cell? (.parameter (.behavior b) d i) = some (d, slot) := by
    simp [Environment.cell?, hslot]
  refine hlogged.happens.kept (hy.settles hcell) fun event hevent hwrites => ?_
  cases event with
  | wrote site callee a =>
    cases hwrites
    obtain ⟨n, hn⟩ := htrace.requests_of_wrote (hr.loaded l hl).program (hc l hl) trivial
      (by simp [Task.owner?]) hevent
    exact hb n hn
  | stored => cases hwrites
  | told | used | fetched => cases hwrites

/-- Nothing is stored for an output symbol that is not assigned. -/
theorem Traced.not_stored (ht : e.Traced now trace e') (hl : e.loaded = some l) {d : Domain}
    {k : Nat} (hset : e'.wasSet d k = false) (x : d.Value) :
    .stored d k x ∉ traceLog ⟨e.environment, l.graph⟩ trace := by
  intro hx
  obtain ⟨m, htrace, -⟩ := ht.traces hl
  obtain ⟨n, expression, hmem⟩ := htrace.assigns_of_stored trivial hx
  have hassigned := ht.wasSet_iff.2 ⟨n, expression, x, hmem⟩
  rw [hset] at hassigned
  cases hassigned

/-- An output symbol that is not assigned keeps its value. -/
theorem Traced.output_kept (ht : e.Traced now trace e') (hl : e.loaded = some l) (hr : e.InRange)
    (hc : e.Complete) (hy : e.environment.Unshared) {d : Domain} {k : Nat}
    {symbol : OutputSymbol σ d}
    (hk : (e.environment.symbols.outputs.get d).at? k = some symbol)
    (hset : e'.wasSet d k = false)
    (hvalue : (∃ cell, symbol.binding = .cell cell) ∨
      e.environment.Settles (.output d k) (fun w => (symbol.binding.read w).1)) :
    (e'.readOutput symbol).1 = (e.readOutput symbol).1 := by
  obtain ⟨l', -, -, hlogged⟩ := ht.logged hl hr hc
  have hevents : ∀ event ∈ traceLog ⟨e.environment, l.graph⟩ trace,
      event.writes? ≠ some (.output d k) := by
    intro event hevent hwrites
    cases event with
    | wrote => cases hwrites
    | stored d' k' x =>
      cases hwrites
      exact ht.not_stored hl hset x hevent
    | told | used | fetched => cases hwrites
  rcases hvalue with ⟨cell, hcell⟩ | hsettles
  · have hplace : e.environment.cell? (.output d k) = some (d, cell) := by
      simp [Environment.cell?, hk, hcell, OutputBinding.cell?]
    have hkept := hlogged.happens.kept (hy.settles hplace) hevents
    rw [readOutput, readOutput, hcell]
    exact hkept
  · exact hlogged.happens.kept hsettles hevents

/-- **A cycle has a frame.** -/
theorem Traced.frame (ht : e.Traced now trace e') (hl : e.loaded = some l) (hr : e.InRange)
    (hc : e.Complete) (hp : e.Past) (hy : e.environment.Unshared) :
    ∃ l', e'.loaded = some l' ∧ l'.graph = l.graph ∧ e.Frame trace e' l l' := by
  obtain ⟨l', hl', hg, hlogged⟩ := ht.logged hl hr hc
  refine ⟨l', hl', hg, ?_⟩
  constructor
  case idle => exact fun i hi => ht.options_idle hl hp hl' hi
  case ran => exact fun n i k time stateTime hx => ht.clocks_ran hl hp hl' hx
  case behaviors =>
    refine fun b hb => ⟨?_, fun d i slot hslot => ht.slot_kept hl hr hc hy hb hslot⟩
    obtain ⟨m, htrace, rfl⟩ := ht.traces hl
    exact htrace.behaviors_eq hb
  case outputs =>
    exact fun d k symbol hk hset =>
      ⟨ht.not_stored hl hset, ht.output_kept hl hr hc hy hk hset⟩
  case memory =>
    intro site hsite
    have hnone : lastUse site (traceLog ⟨e.environment, l.graph⟩ trace) = none := by
      cases huse : lastUse site (traceLog ⟨e.environment, l.graph⟩ trace) with
      | none => rfl
      | some use =>
        obtain ⟨callee, hused⟩ := exists_used_of_lastUse huse
        exact absurd hused (hsite callee use.1 use.2)
    rw [hlogged.memory_eq, hnone]
    rfl

/-- **A cycle touches only what runs.** Whatever calls an engine has taken, the next cycle has a
trace, and it leaves alone what has no part in it, if no cell is bound to two symbols or parameters,
and no function of the host writes a cell that is bound. -/
theorem execute_touches_what_runs (limits : Limits) (environment : Environment σ)
    (world : World σ) (calls : List (Call σ)) (hy : environment.Unshared) (l : Loaded)
    (hl : ((Engine.new limits environment world).after calls).loaded = some l) (now : Nat) :
    (∃ trace e', ((Engine.new limits environment world).after calls).Traced now trace e') ∧
    ∀ trace e', ((Engine.new limits environment world).after calls).Traced now trace e' →
      ∃ l', e'.loaded = some l' ∧ l'.graph = l.graph ∧
        ((Engine.new limits environment world).after calls).Frame trace e' l l' := by
  have hr := (InRange.new limits environment world).after calls
  have hc := (Complete.new limits environment world).after calls
  have hp := (Past.new limits environment world).after calls
  have henvironment := (Engine.new limits environment world).after_environment calls
  refine ⟨hr.exists_traced hl now, fun trace e' ht => ht.frame hl hr hc hp ?_⟩
  rw [henvironment]
  exact hy

/-! ### A porch -/

/-- A light that can be switched when it is dark, a heater, and a chime that counts its strokes. -/
def porch : Environment Nat where
  symbols := {
    enumerations := Registry.empty
    inputs := ⟨Registry.empty, ⟨[("dark", {
      typing := ()
      binding := .cell "dark"
      parameters := ⟨Registry.empty, Registry.empty, Registry.empty⟩
      parametersChanged := none })], by simp⟩, Registry.empty⟩
    outputs := ⟨⟨[("heat", ⟨(), .cell "heat"⟩)], by decide⟩,
      ⟨[("light", ⟨(), .cell "light"⟩)], by decide⟩, Registry.empty⟩ }
  behaviors := ⟨[("chime", {
    parameters := ⟨Registry.empty, ⟨[("loud", ⟨(), "loud"⟩)], by decide⟩, Registry.empty⟩
    run := fun w => { w with host := w.host + 1 }
    parametersChanged := id })], by simp⟩
  sound := by decide

/-- The light follows the darkness. The option that would chime is not activated, and nothing heats
the porch. -/
def porchSource : String :=
  "2 main 0 visit 0 main 1 s s s 0 1 b light i dark 0 t s " ++
  "visit 1 s s s 0 1 a chime 1 b loud v true t s 0"

def porchEngine : Engine Nat := Engine.new Limits.standard porch ⟨Cells.empty, 0⟩

theorem slot?_input_porch (d : Domain) (k : Nat) (kind : Domain) (i : Nat) :
    porch.slot? (.input d k) kind i = none := by
  cases d with
  | decimal | enumerated => rfl
  | boolean =>
    cases k with
    | zero => cases kind <;> rfl
    | succ k => rfl

theorem cell?_porch {p : Place} {cell : Domain × String} (h : porch.cell? p = some cell) :
    (p, cell) ∈ [(.input .boolean 0, .boolean, "dark"), (.output .decimal 0, .decimal, "heat"),
      (.output .boolean 0, .boolean, "light"),
      (.parameter (.behavior 0) .boolean 0, .boolean, "loud")] := by
  match p, h with
  | .input .boolean 0, rfl | .output .decimal 0, rfl | .output .boolean 0, rfl
  | .parameter (.behavior 0) .boolean 0, rfl => simp
  | .parameter (.input d k) kind i, h => simp [Environment.cell?, slot?_input_porch] at h

theorem input_at?_porch {d : Domain} {k : Nat} {symbol : InputSymbol Nat d}
    (h : (porch.symbols.inputs.get d).at? k = some symbol) :
    symbol.binding = .cell "dark" ∧ symbol.parametersChanged = none := by
  cases d with
  | decimal | enumerated => cases h
  | boolean =>
    cases k with
    | zero =>
      cases h
      exact ⟨rfl, rfl⟩
    | succ k => cases h

theorem output_at?_porch {d : Domain} {k : Nat} {symbol : OutputSymbol Nat d}
    (h : (porch.symbols.outputs.get d).at? k = some symbol) :
    ∃ cell, symbol.binding = .cell cell := by
  cases d with
  | enumerated => cases h
  | decimal | boolean =>
    cases k with
    | zero =>
      cases h
      exact ⟨_, rfl⟩
    | succ k => cases h

/-- The functions of the host write no cells. -/
theorem cells_offers_porch {f : World Nat → World Nat} (h : porch.Offers f) (w : World Nat) :
    (f w).cells = w.cells := by
  cases h with
  | getter hs hb =>
    rw [(input_at?_porch hs).1] at hb
    cases hb
  | inputNotice hs hn =>
    rw [(input_at?_porch hs).2] at hn
    cases hn
  | fetch hs hb | store hs hb =>
    obtain ⟨cell, hcell⟩ := output_at?_porch hs
    rw [hcell] at hb
    cases hb
  | @run b behavior hb | @behaviorNotice b behavior hb =>
    cases b with
    | zero =>
      cases hb
      rfl
    | succ b => cases hb

theorem unshared_porch : porch.Unshared where
  distinct := by
    intro p q cell hp hq
    have hp := cell?_porch hp
    have hq := cell?_porch hq
    simp only [List.mem_cons, Prod.mk.injEq, List.not_mem_nil, or_false] at hp hq
    rcases hp with ⟨rfl, rfl⟩ | ⟨rfl, rfl⟩ | ⟨rfl, rfl⟩ | ⟨rfl, rfl⟩ <;> simp_all
  spared := fun f hf _ d cell _ w => congrArg (Cells.read · d cell) (cells_offers_porch hf w)

theorem execute_touches_what_runs_porch : porch.Unshared ∧ ∃ l trace e' l',
    (porchEngine.after [.create porchSource, .execute 3]).loaded = some l ∧
    (porchEngine.after [.create porchSource, .execute 3]).Traced 5 trace e' ∧
    e'.loaded = some l' ∧
    (porchEngine.after [.create porchSource, .execute 3]).Frame trace e' l l' := by
  have hsome : (porchEngine.after [.create porchSource, .execute 3]).loaded.isSome = true := by
    decide +kernel
  obtain ⟨l, hl⟩ := Option.isSome_iff_exists.1 hsome
  obtain ⟨⟨trace, e', ht⟩, hlaw⟩ := execute_touches_what_runs _ _ _ _ unshared_porch l hl 5
  obtain ⟨l', hl', -, hframe⟩ := hlaw trace e' ht
  exact ⟨unshared_porch, l, trace, e', l', hl, ht, hl', hframe⟩

end Engine

end BehaviorEngine
