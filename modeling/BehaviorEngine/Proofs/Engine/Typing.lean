import BehaviorEngine.Proofs.Cycle.Typing
import BehaviorEngine.Proofs.Engine.Refusals
import BehaviorEngine.Proofs.Sites.Slots
import BehaviorEngine.Proofs.Snapshot.Alike

/-!
Typing at run time. All graphs that an engine uses are typed, so as long as the host keeps to the
enumerations, all that an engine computes stays within them, in every cycle of every run.
-/

namespace BehaviorEngine

/-- Whether a call is answered with the help of the host, or is a move of the host. -/
def Call.touchesHost {σ : Type} : Call σ → Bool
  | execute _ | activeBehaviors | host _ => true
  | reset | create _ | selectAgent _ | selectRoot _ | resetOutputs => false

/-! ### Hosts that answer with elements -/

/-- Whenever it is asked, the host answers with elements. -/
structure Environment.AnswersElements {σ : Type} (environment : Environment σ) : Prop where
  input : ∀ (d : Domain) (k : Nat) (symbol : InputSymbol σ d),
    (environment.symbols.inputs.get d).at? k = some symbol →
    ∀ w, environment.symbols.Admits symbol.typing (symbol.binding.read w).1
  output : ∀ (d : Domain) (k : Nat) (symbol : OutputSymbol σ d),
    (environment.symbols.outputs.get d).at? k = some symbol →
    (∀ cell, symbol.binding ≠ .cell cell) →
    ∀ w, environment.symbols.Admits symbol.typing (symbol.binding.read w).1

/-- A host that answers with elements supplies elements in every cycle. -/
theorem Environment.AnswersElements.supplies {σ : Type} {p : Program σ}
    (ha : p.environment.AnswersElements) {c : Cycle} {t : Task} {depth : Nat} {m m' : Machine σ}
    {trace : List (Moment σ)} (h : Traces p c t depth m trace m') :
    ∀ y ∈ traceYields p trace, y.SuppliesElement p.environment := by
  intro y hy
  obtain ⟨i, path, s, m₁, hx, hevaluated⟩ := evaluated_of_mem_traceYields hy
  have hs := h.evaluates_symbols hx
  cases y with
  | argument | assigned => trivial
  | @value d e x =>
    cases e with
    | input t k bindings =>
      intro symbol hk
      obtain ⟨site, st, st', hvalue⟩ := hevaluated
      obtain ⟨_, _, w, -, -, -, hread⟩ := Expr.value_input_eq_some (hs ▸ hk) hvalue
      have hadmits := ha.input _ k symbol hk w
      rw [hread] at hadmits
      exact hadmits
    | output t k =>
      intro symbol hk hfunction
      obtain ⟨site, st, st', hvalue⟩ := hevaluated
      obtain ⟨symbol', st₀, hlift, hask⟩ := Partial.bind_eq_some.1 hvalue
      obtain ⟨hk', rfl⟩ := Partial.lift_eq_some.1 hlift
      obtain rfl := Option.some_inj.1 (hk.symm.trans (hs ▸ hk'))
      obtain ⟨rfl, -⟩ := Prod.mk.inj (Partial.modifyGet_eq_some.1 hask)
      exact ha.output _ k symbol hk hfunction _
    | _ => trivial

namespace Engine

variable {σ : Type} {e : Engine σ} {calls : List (Call σ)}

/-! ### Runs in which the host keeps to the enumerations -/

/-- A cycle that an engine runs in the course of some calls: the graph in use, the trace of the
cycle, and the engine after it. -/
def RunsCycle (e : Engine σ) (calls : List (Call σ)) (l : Loaded) (trace : List (Moment σ))
    (e' : Engine σ) : Prop :=
  ∃ before now rest, calls = before ++ .execute now :: rest ∧ (e.after before).loaded = some l ∧
    (e.after before).Traced now trace e'

/-- **The host keeps to the enumerations** in the course of some calls. -/
structure KeepsElements (e : Engine σ) (calls : List (Call σ)) : Prop where
  /-- The variables behind output symbols are not shared. -/
  owns : e.environment.OwnsVariables
  /-- They start with elements. -/
  start : e.environment.HoldsElements e.world
  /-- Whatever the host does between calls leaves elements in them. -/
  host : ∀ f, .host f ∈ calls →
    ∀ w, e.environment.HoldsElements w → e.environment.HoldsElements (f w)
  /-- Input symbols, and functions behind output symbols, supply elements. -/
  supplies : ∀ l trace e', e.RunsCycle calls l trace e' →
    ∀ y ∈ traceYields ⟨e.environment, l.graph⟩ trace, y.SuppliesElement e.environment
  /-- The options that are used as roots have no enumerated parameters. -/
  root : ∀ l trace e', e.RunsCycle calls l trace e' →
    ∀ node, l.graph.options.at? l.root = some node → node.parameters.sizes .enumerated = 0

/-! ### One cycle -/

/-- A cycle of a typed graph that starts with elements ends with elements, and its values stay
within their enumerations. -/
theorem Traced.staysWithin {e' : Engine σ} {now : Nat} {trace : List (Moment σ)} {l : Loaded}
    (ht : e.Traced now trace e') (hl : e.loaded = some l) (hr : e.InRange) (hp : e.Past)
    (hc : e.Complete) (htyped : Program.Typed ⟨e.environment, l.graph⟩)
    (howns : e.environment.OwnsVariables) (hw : e.environment.HoldsElements e.world)
    (hroot : ∀ node, l.graph.options.at? l.root = some node →
      node.parameters.sizes .enumerated = 0)
    (hsupplies : ∀ y ∈ traceYields ⟨e.environment, l.graph⟩ trace,
      y.SuppliesElement e.environment) :
    (∀ y ∈ traceYields ⟨e.environment, l.graph⟩ trace, y.StaysWithin ⟨e.environment, l.graph⟩) ∧
      e'.environment.HoldsElements e'.world := by
  obtain ⟨m, htrace, rfl⟩ := ht.traces hl
  -- Nothing has run in the cycle yet, so the only parameters that matter are those of the root.
  have hm : Machine.HoldsElements ⟨e.environment, l.graph⟩ ⟨e.cycle + 1, now⟩
      { e.machine l with assigned := PerDomain.ofFn fun _ => [] } :=
    ⟨hw, fun i _ a _ ha hran => absurd ⟨a, ha, hran⟩ (hp.not_ran hl now i)⟩
  have htask : (Task.option l.root).HoldsElements ⟨e.environment, l.graph⟩
      { e.machine l with assigned := PerDomain.ofFn fun _ => [] } := by
    intro node a hn _ d i t x ht _
    by_cases hd : d = .enumerated
    · subst hd
      obtain ⟨parameter, hparameter, -⟩ := Option.map_eq_some_iff.1 ht
      have hlt : i < node.parameters.sizes .enumerated :=
        Registry.at?_isSome_iff.1 ⟨parameter, hparameter⟩
      rw [hroot node hn] at hlt
      exact absurd hlt (Nat.not_lt_zero i)
    · exact Symbols.admits_of_ne hd _ _
  obtain ⟨hstays, hend⟩ := htrace.staysWithin howns (hr.loaded l hl).program (hc l hl) htyped
    trivial nofun hm htask hsupplies
  exact ⟨hstays, hend.world⟩

/-! ### All cycles -/

/-- All other calls leave the host as it is. -/
theorem call_world_eq {c : Call σ} (hc : c.touchesHost = false) : (e.call c).world = e.world := by
  cases c with
  | execute | activeBehaviors | host => cases hc
  | reset | resetOutputs => rfl
  | create source =>
    rw [call, create]
    split <;> rfl
  | selectAgent name =>
    rw [call]
    obtain ⟨-, _, h⟩ | ⟨_, _, _, -, -, h⟩ := e.selectAgent_cases name
    · rw [h]
    · rw [h]
  | selectRoot name =>
    rw [call]
    obtain ⟨-, _, h⟩ | ⟨_, _, -, -, h⟩ := e.selectRoot_cases name
    · rw [h]
    · rw [h]

/-- A snapshot leaves elements in the variables of output symbols. -/
theorem activeBehaviors_holdsElements (howns : e.environment.OwnsVariables)
    (hw : e.environment.HoldsElements e.world) :
    e.environment.HoldsElements e.activeBehaviors.2.world := by
  rw [activeBehaviors]
  cases h : e.activeBehaviors? with
  | none => exact hw
  | some r =>
    rw [activeBehaviors?] at h
    cases hl : e.loaded with
    | none =>
      rw [hl] at h
      cases h
      exact hw
    | some l =>
      simp only [hl] at h
      split at h
      · cases h
        exact hw
      · obtain ⟨⟨entries, world⟩, hwalk, h⟩ := Option.bind_eq_some_iff.1 h
        cases h
        exact activeBehaviors?_preserves (P := e.environment.HoldsElements)
          (fun d k symbol hk w hw => hw.of_spares fun k' symbol' cell hk' hcell =>
            (howns k' symbol' cell hk' hcell).fetch d k symbol hk w) hw hwalk

namespace KeepsElements

/-- What a cycle of the calls does. -/
theorem cycle (h : e.KeepsElements calls) (hr : e.InRange) (hp : e.Past) (hc : e.Complete)
    (hn : e.loaded = none) {before rest : List (Call σ)} {now : Nat} {l : Loaded}
    {trace : List (Moment σ)} {e' : Engine σ} (hcalls : calls = before ++ .execute now :: rest)
    (hl : (e.after before).loaded = some l) (ht : (e.after before).Traced now trace e')
    (hw : e.environment.HoldsElements (e.after before).world) :
    Program.Typed ⟨e.environment, l.graph⟩ ∧
    (∀ y ∈ traceYields ⟨e.environment, l.graph⟩ trace, y.StaysWithin ⟨e.environment, l.graph⟩) ∧
      e.environment.HoldsElements e'.world := by
  obtain ⟨source, -, hsource⟩ := exists_source hn hl
  have htyped := Graph.typed_of_ofSource hsource
  have hcycle : e.RunsCycle calls l trace e' := ⟨before, now, rest, hcalls, hl, ht⟩
  have hstays := ht.staysWithin hl (hr.after before) (hp.after before) (hc.after before)
  have henvironment : e'.environment = e.environment := by
    rw [← ht.call_eq, (steps_call _ _).environment_eq, after_environment]
  rw [henvironment, after_environment] at hstays
  exact ⟨htyped, hstays htyped h.owns hw (h.root _ _ _ hcycle) (h.supplies _ _ _ hcycle)⟩

/-- **Whenever a call is taken, the variables of output symbols hold elements.** -/
theorem after (h : e.KeepsElements calls) (hr : e.InRange) (hp : e.Past) (hc : e.Complete)
    (hn : e.loaded = none) {before rest : List (Call σ)} (hcalls : calls = before ++ rest) :
    e.environment.HoldsElements (e.after before).world := by
  induction before using List.reverseRecOn generalizing rest with
  | nil => exact h.start
  | append_singleton before c ih =>
    rw [List.append_assoc] at hcalls
    have hw := ih hcalls
    rw [after_append]
    cases c with
    | execute now =>
      rcases he : (e.after before).execute now with ⟨error | ⟨⟩, e'⟩
      · obtain ⟨_, hcall⟩ := call_execute_of_error (congrArg Prod.fst he)
        rw [hcall]
        exact hw
      · obtain ⟨trace, ht⟩ := Engine.exists_traced he
        obtain ⟨-, l, -, hl, -⟩ := id ht
        rw [call, he]
        exact (h.cycle hr hp hc hn hcalls hl ht hw).2.2
    | activeBehaviors =>
      have hsnapshot := activeBehaviors_holdsElements (e := e.after before)
      rw [after_environment] at hsnapshot
      exact hsnapshot h.owns hw
    | host f => exact h.host f (by simp [hcalls]) _ hw
    | reset | create | resetOutputs | selectAgent | selectRoot =>
      rw [call_world_eq rfl]
      exact hw

end KeepsElements

/-- **Enumerations are sound.** Every graph that is built is typed. In every run in which the host
keeps to the enumerations, each value that an expression has, that is passed as an argument or that
is assigned to an output symbol agrees with its typing, and all variables of output symbols hold
elements after each cycle. -/
theorem enumerations_sound (limits : Limits) (environment : Environment σ) :
    (∀ source g, Graph.ofSource limits environment source = .ok g →
      Program.Typed ⟨environment, g⟩) ∧
    ∀ (world : World σ) (calls : List (Call σ)),
      (Engine.new limits environment world).KeepsElements calls → ∀ l trace e',
      (Engine.new limits environment world).RunsCycle calls l trace e' →
        Program.Typed ⟨environment, l.graph⟩ ∧
        (∀ y ∈ traceYields ⟨environment, l.graph⟩ trace, y.StaysWithin ⟨environment, l.graph⟩) ∧
        environment.HoldsElements e'.world := by
  refine ⟨fun source g => Graph.typed_of_ofSource, fun world calls h l trace e' hcycle => ?_⟩
  obtain ⟨before, now, rest, hcalls, hl, ht⟩ := hcycle
  have hr := InRange.new limits environment world
  have hp := Past.new limits environment world
  have hc := Complete.new limits environment world
  exact h.cycle hr hp hc rfl hcalls hl ht (h.after hr hp hc rfl hcalls)

/-- The moods that a face can show, a sensor for them and a voice with a tone. -/
def face : Environment Nat where
  symbols := {
    enumerations := ⟨[("mood", ⟨[("calm", 3), ("tense", 7)], by decide⟩)], by simp⟩
    inputs := ⟨Registry.empty, Registry.empty, ⟨[("sensed", ⟨(0 : Nat), .getter fun w =>
      (if w.host = 0 then (3 : Int32) else 7, { w with host := w.host + 1 }),
      Parameters.none, none⟩)], by simp⟩⟩
    outputs := ⟨Registry.empty, Registry.empty, ⟨[("face", ⟨(0 : Nat), .cell "face"⟩)], by simp⟩⟩ }
  behaviors := ⟨[("speak", ⟨⟨Registry.empty, Registry.empty, ⟨[("tone", ⟨(0 : Nat), "tone"⟩)],
    by simp⟩⟩, id, id⟩)], by simp⟩
  sound := by decide

/-- A source that shows the mood that is sensed as long as the face is calm. -/
def faceSource : String :=
  "2 main 0 show 1 e mood as main 1 s s s 0 1 o show 1 e as q c o face v calm i sensed 0 o face " ++
  "t s show 1 s s s 0 2 e face p as a speak 1 e tone o face t s 0"

/-- An engine with a face that is calm. -/
def faceEngine : Engine Nat :=
  Engine.new Limits.standard face ⟨Cells.empty.write .enumerated "face" (3 : Int32), 0⟩

/-- Two cycles, and something happens to the host between them. -/
def faceCalls : List (Call Nat) :=
  [.create faceSource, .execute 5, .host fun w => { w with host := w.host + 1 }, .execute 7]

theorem output_at?_face {d : Domain} {k : Nat} {symbol : OutputSymbol Nat d}
    (h : (face.symbols.outputs.get d).at? k = some symbol) : d = .enumerated ∧ k = 0 := by
  cases d with
  | decimal | boolean => cases h
  | enumerated =>
    cases k with
    | zero => exact ⟨rfl, rfl⟩
    | succ k => cases h

theorem input_at?_face {d : Domain} {k : Nat} {symbol : InputSymbol Nat d}
    (h : (face.symbols.inputs.get d).at? k = some symbol) : d = .enumerated ∧ k = 0 := by
  cases d with
  | decimal | boolean => cases h
  | enumerated =>
    cases k with
    | zero => exact ⟨rfl, rfl⟩
    | succ k => cases h

/-- The face has a variable to itself. -/
theorem owns_face : face.Owns .enumerated 0 "face" where
  store := by
    intro d k symbol hs hne
    obtain ⟨rfl, rfl⟩ := output_at?_face hs
    exact absurd rfl hne
  fetch := by
    intro d k symbol hs w
    obtain ⟨rfl, rfl⟩ := output_at?_face hs
    cases hs
    rfl
  input := by
    intro d k symbol hs
    obtain ⟨rfl, rfl⟩ := input_at?_face hs
    cases hs
    exact ⟨fun _ => rfl, nofun⟩
  inputSlot := by
    intro d k symbol hs kind i x hx
    obtain ⟨rfl, rfl⟩ := input_at?_face hs
    cases hs
    cases kind <;> cases hx
  behavior := by
    intro k behavior hs
    match k, hs with
    | 0, rfl => exact ⟨fun _ => rfl, fun _ => rfl⟩
  behaviorSlot := by
    intro k behavior hs kind i x hx
    match k, hs with
    | 0, rfl =>
      cases kind with
      | decimal | boolean => cases hx
      | enumerated =>
        cases i with
        | zero =>
          cases hx
          decide
        | succ i => cases hx

/-- The host has a face that is calm, and whenever it senses a mood it answers with one. -/
theorem keepsElements_face : faceEngine.KeepsElements faceCalls where
  owns := by
    intro k symbol cell hk hcell
    obtain ⟨-, rfl⟩ := output_at?_face hk
    cases hk
    cases hcell
    exact owns_face
  start := by
    intro d k symbol cell hk hcell
    obtain ⟨rfl, rfl⟩ := output_at?_face hk
    cases hk
    cases hcell
    exact ⟨"calm", by decide +kernel⟩
  host := by
    intro f hf w hw
    obtain rfl : f = fun w => { w with host := w.host + 1 } := by simpa [faceCalls] using hf
    exact hw
  supplies := by
    rintro l trace e' ⟨before, now, rest, -, hl, ht⟩
    have henvironment : (faceEngine.after before).environment = face := after_environment _ _
    obtain ⟨m, htrace, -⟩ := ht.traces hl
    rw [henvironment] at htrace
    refine Environment.AnswersElements.supplies ⟨?_, ?_⟩ htrace
    · intro d k symbol hk w
      obtain ⟨rfl, rfl⟩ := input_at?_face hk
      cases hk
      by_cases hw : w.host = 0
      · exact ⟨"calm", by simp [InputBinding.read, hw]; decide +kernel⟩
      · exact ⟨"tense", by simp [InputBinding.read, hw]; decide +kernel⟩
    · intro d k symbol hk hfunction
      obtain ⟨rfl, rfl⟩ := output_at?_face hk
      cases hk
      exact absurd rfl (hfunction "face")
  root := by
    rintro l trace e' ⟨before, now, rest, hcalls, hl, -⟩ node hn
    have hroots : ∀ n < faceCalls.length,
        ((faceEngine.after (faceCalls.take n)).loaded.bind fun l =>
          (l.graph.options.at? l.root).map fun node => node.parameters.sizes .enumerated) ∈
        [none, some 0] := by decide +kernel
    have hbefore : faceCalls.take before.length = before := by rw [hcalls, List.take_left]
    have hroot := hroots before.length (by simp [hcalls])
    rw [hbefore, hl] at hroot
    simpa [hn] using hroot

/-- The face becomes tense. -/
example : (faceEngine.after faceCalls).world.read .enumerated "face" = (7 : Int32) := by
  decide +kernel

theorem enumerations_sound_face : ∃ l trace e', faceEngine.KeepsElements faceCalls ∧
    faceEngine.RunsCycle faceCalls l trace e' ∧ Program.Typed ⟨face, l.graph⟩ ∧
    (∀ y ∈ traceYields ⟨face, l.graph⟩ trace, y.StaysWithin ⟨face, l.graph⟩) ∧
    face.HoldsElements e'.world := by
  have hsome : (faceEngine.after (faceCalls.take 3)).loaded.isSome = true := by decide +kernel
  obtain ⟨l, hl⟩ := Option.isSome_iff_exists.1 hsome
  have hr : (faceEngine.after (faceCalls.take 3)).InRange := (InRange.new _ _ _).after _
  obtain ⟨trace, e', ht⟩ := hr.exists_traced hl 7
  have hcycle : faceEngine.RunsCycle faceCalls l trace e' := ⟨_, 7, [], rfl, hl, ht⟩
  exact ⟨l, trace, e', keepsElements_face, hcycle,
    (enumerations_sound Limits.standard face).2 _ faceCalls keepsElements_face l trace e' hcycle⟩

end Engine

end BehaviorEngine
