import Mathlib.Data.List.Induction
import BehaviorEngine.Proofs.Cycle.Trace
import BehaviorEngine.Proofs.Engine.Cycles

/-!
Histories. Of the calls that an engine has taken, a history keeps the traces of the cycles and the
places where activation was forgotten, the latest first. It settles what an option keeps: since when
the option and its active state are active, and which state that is.
-/

namespace BehaviorEngine

variable {σ : Type}

/-! ### Records -/

/-- What a history keeps of a call. -/
inductive Record (σ : Type) where
  /-- A cycle ran at a reading of the clock. -/
  | cycle (now : Nat) (trace : List (Moment σ))
  /-- Activation was forgotten, in a reset or with the graph. -/
  | forgotten

namespace Record

/-- The state in which an option ran. -/
def state? (i : Nat) : Record σ → Option Nat
  | cycle _ trace => trace.findSome? (Moment.entered? i)
  | forgotten => none

/-- The state that the decision tree of an option selected. -/
def next? (i : Nat) : Record σ → Option Nat
  | cycle _ trace => trace.findSome? (Moment.selected? i)
  | forgotten => none

/-- Whether an option ran. -/
def ran (i : Nat) (r : Record σ) : Bool := (r.state? i).isSome

/-- Whether an option ran in another state and selected the state `k`. -/
def switchesTo (i k : Nat) (r : Record σ) : Bool := r.next? i = some k && r.state? i ≠ some k

/-- The reading of the clock. -/
def now? : Record σ → Option Nat
  | cycle now _ => some now
  | forgotten => none

/-- The longest unbroken block of cycles, back from the last one, in which an option ran. -/
def block (i : Nat) (past : List (Record σ)) : List (Record σ) := past.takeWhile (ran i)

/-- The reading of the clock in the first cycle of the block, or the present one if the block is
empty. -/
def activeSince (i now : Nat) (past : List (Record σ)) : Nat :=
  ((block i past).filterMap now?).getLast?.getD now

/-- The reading of the clock in the last cycle of the block in which an option switched to the state
`k`, or in the first cycle if it did not. -/
def stateSince (i k now : Nat) (past : List (Record σ)) : Nat :=
  (((block i past).find? (switchesTo i k)).bind now?).getD (activeSince i now past)

variable {i k now : Nat} {r : Record σ} {past : List (Record σ)}

theorem block_cons_of_ran (h : r.ran i = true) : block i (r :: past) = r :: block i past :=
  List.takeWhile_cons_of_pos h

/-- The block ends where the option did not run. -/
theorem block_eq_nil (h : past.head?.any (ran i) = false) : block i past = [] := by
  cases past with
  | nil => rfl
  | cons r past => exact List.takeWhile_cons_of_neg (by simpa using h)

/-- A cycle goes on with the block. -/
theorem activeSince_cons (h : r.ran i = true) (hr : r.now? = some now) (now' : Nat) :
    activeSince i now' (r :: past) = activeSince i now past := by
  rw [activeSince, block_cons_of_ran h, List.filterMap_cons_some hr, List.getLast?_cons]
  rfl

theorem activeSince_of_idle (h : past.head?.any (ran i) = false) :
    activeSince i now past = now := by
  rw [activeSince, block_eq_nil h]
  rfl

/-- A cycle in which an option switches starts the time of the new state. -/
theorem stateSince_cons (h : r.ran i = true) (hr : r.now? = some now) (now' : Nat) :
    stateSince i k now' (r :: past) =
      if r.switchesTo i k = true then now else stateSince i k now past := by
  rw [stateSince, activeSince_cons h hr, block_cons_of_ran h, List.find?_cons]
  cases hs : r.switchesTo i k with
  | true => simp [hr]
  | false => rfl

theorem stateSince_of_idle (h : past.head?.any (ran i) = false) :
    stateSince i k now past = now := by
  rw [stateSince, activeSince_of_idle h, block_eq_nil h]
  rfl

/-- A search finds the one value that there is to find. -/
theorem findSome?_eq_some {α β : Type} {f : α → Option β} {xs : List α} {x : α} {y : β}
    (hx : x ∈ xs) (hy : f x = some y) (h : ∀ z ∈ xs, ∀ w ∈ f z, w = y) :
    xs.findSome? f = some y := by
  cases hf : xs.findSome? f with
  | none =>
    have := List.findSome?_eq_none_iff.1 hf x hx
    simp [hy] at this
  | some w =>
    obtain ⟨z, hz, hw⟩ := List.exists_of_findSome?_eq_some hf
    rw [h z hz w hw]

section Agrees

variable {c : Cycle} {options : List Activation} {trace : List (Moment σ)} {a : Activation}

/-- The state in which an option ran is the one that it keeps. -/
theorem state?_eq (h : ∀ x ∈ trace, x.Agrees c options) (ha : options[i]? = some a)
    {depth time stateTime : Nat} (hx : .enters depth i k time stateTime ∈ trace) :
    (cycle now trace).state? i = some a.executed := by
  have hall : ∀ y ∈ trace, ∀ k' ∈ y.entered? i, k' = a.executed := by
    intro y hy k' hk'
    cases y with
    | enters _ j _ _ _ =>
      obtain ⟨rfl, hjk⟩ := Option.ite_none_right_eq_some.1 hk'
      obtain ⟨b, hb, -, hb', -⟩ := h _ hy j rfl
      obtain rfl := Option.some_inj.1 (ha.symm.trans hb)
      exact (Option.some_inj.1 hjk).symm.trans hb'.symm
    | _ => cases hk'
  have hk := hall _ hx k (if_pos rfl)
  exact findSome?_eq_some hx (hk ▸ if_pos rfl) hall

/-- The state that an option selected is the one that it keeps. -/
theorem next?_eq (h : ∀ x ∈ trace, x.Agrees c options) (ha : options[i]? = some a)
    (hx : .selects i k ∈ trace) : (cycle now trace).next? i = some k := by
  have hall : ∀ y ∈ trace, ∀ k' ∈ y.selected? i, k' = a.active := by
    intro y hy k' hk'
    cases y with
    | selects j _ =>
      obtain ⟨rfl, hjk⟩ := Option.ite_none_right_eq_some.1 hk'
      obtain ⟨b, hb, -, hb'⟩ := h _ hy j rfl
      obtain rfl := Option.some_inj.1 (ha.symm.trans hb)
      exact (Option.some_inj.1 hjk).symm.trans hb'.symm
    | _ => cases hk'
  have hk := hall _ hx k (if_pos rfl)
  exact findSome?_eq_some hx (if_pos rfl) fun x hx w hw => (hall x hx w hw).trans hk.symm

/-- An option that has not run in the cycle is not told of. -/
theorem idle (h : ∀ x ∈ trace, x.Agrees c options) (ha : options[i]? = some a)
    (hr : a.ranIn c.number = false) (now : Nat) :
    (cycle now trace).ran i = false ∧ (cycle now trace).next? i = none := by
  have hnone : ∀ x ∈ trace, x.option? ≠ some i := by
    intro x hx hi
    obtain ⟨b, hb, hrb, -⟩ := h x hx i hi
    obtain rfl := Option.some_inj.1 (ha.symm.trans hb)
    rw [hr] at hrb
    cases hrb
  constructor
  · rw [ran, Option.isSome_eq_false_iff, Option.isNone_iff_eq_none]
    refine List.findSome?_eq_none_iff.2 fun x hx => ?_
    cases x with
    | enters _ j _ _ _ => exact if_neg fun e => hnone _ hx (congrArg some e)
    | _ => rfl
  · refine List.findSome?_eq_none_iff.2 fun x hx => ?_
    cases x with
    | selects j _ => exact if_neg fun e => hnone _ hx (congrArg some e)
    | _ => rfl

end Agrees

end Record

/-! ### Activations and histories -/

namespace Activation

variable {a a' : Activation} {c : Cycle} {i k : Nat}

theorem start_since : (a.start c k).since = if a.continues c.number then a.since else c.now := by
  unfold start
  split <;> rfl

theorem start_elapsed : (a.start c k).elapsed = c.now - (a.start c k).since := by
  unfold start
  split <;> rfl

/-- The clock of the state that runs goes on if the run of the option does, and starts over if
not. -/
theorem start_clock (hk : k < a.clocks.length) :
    (a.start c k).clocks[(a.start c k).executed]? =
      if a.continues c.number then a.clocks[a.active]?.map (StateClock.advance c.now)
      else some ⟨c.now, 0⟩ := by
  unfold start
  split
  · simp
  · simp [switch, hk, StateClock.restart, StateClock.advance]

/-- The clock of the state that is selected goes on if that state ran, and starts over if not. -/
theorem finish_clock (hk : k < a.clocks.length) : (a.finish c k).clocks[k]? =
    if k = a.executed then a.clocks[k]? else some ⟨c.now, 0⟩ := by
  unfold finish
  split
  · rfl
  · simp [switch, hk, StateClock.restart]

@[simp] theorem start_clocks_length : (a.start c k).clocks.length = a.clocks.length := by
  unfold start switch
  split <;> simp

/-- What an option keeps after a number of cycles is what a history tells of it. -/
structure Recalls (past : List (Record σ)) (cycle i : Nat) (a : Activation) : Prop where
  continues : a.continues (cycle + 1) = past.head?.any (Record.ran i)
  next : past.head?.bind (Record.next? i) =
    if a.continues (cycle + 1) then some a.active else none
  since : a.continues (cycle + 1) = true → ∀ now, a.since = Record.activeSince i now past
  clock : a.continues (cycle + 1) = true → ∀ now, ∃ clock, a.clocks[a.active]? = some clock ∧
    clock.since = Record.stateSince i a.active now past

variable {past : List (Record σ)} {cycle now : Nat}

/-- An option that did not run in the last cycle keeps nothing. -/
theorem Recalls.idle {r : Record σ} (ha : a.continues (cycle + 1) = false) (hr : r.ran i = false)
    (hn : r.next? i = none) : a.Recalls (r :: past) cycle i where
  continues := by simpa [ha] using hr.symm
  next := by simpa [ha] using hn
  since := by simp [ha]
  clock := by simp [ha]

/-! ### The next run of an option -/

namespace Recalls

variable {initial : Nat}

/-- An option that did not run in the cycle before starts over. -/
theorem start_executed_of_idle (h : a.Recalls past cycle i)
    (hi : past.head?.any (Record.ran i) = false) :
    (a.start ⟨cycle + 1, now⟩ initial).executed = initial := by
  rw [Activation.start_executed, h.continues, hi]
  rfl

/-- An option that ran in the cycle before goes on in the state that it selected then. -/
theorem next?_of_ran (h : a.Recalls past cycle i) {r : Record σ} (hr : r ∈ past.head?)
    (hran : r.ran i = true) :
    r.next? i = some (a.start ⟨cycle + 1, now⟩ initial).executed := by
  cases past with
  | nil => cases hr
  | cons r' rest =>
    obtain rfl := Option.some_inj.1 hr
    have hcontinues : a.continues (cycle + 1) = true := h.continues.trans hran
    rw [Activation.start_executed, if_pos hcontinues]
    exact h.next.trans (if_pos hcontinues)

/-- An option is active since the first cycle of its block. -/
theorem start_since (h : a.Recalls past cycle i) :
    (a.start ⟨cycle + 1, now⟩ initial).since = Record.activeSince i now past := by
  rw [Activation.start_since]
  split
  · next hc => exact h.since hc now
  · next hc =>
    rw [h.continues, Bool.not_eq_true] at hc
    exact (Record.activeSince_of_idle hc).symm

/-- The state in which an option runs is active since it was switched to. -/
theorem start_clock (h : a.Recalls past cycle i) (hi : initial < a.clocks.length) (now : Nat) :
    ∃ clock, (a.start ⟨cycle + 1, now⟩ initial).clocks[
        (a.start ⟨cycle + 1, now⟩ initial).executed]? = some clock ∧
      clock.since = Record.stateSince i (a.start ⟨cycle + 1, now⟩ initial).executed now past ∧
      clock.elapsed = now - clock.since := by
  rw [Activation.start_clock hi]
  split
  · next hc =>
    obtain ⟨clock, hclock, hsince⟩ := h.clock hc now
    rw [hclock, Activation.start_executed, if_pos hc]
    exact ⟨_, rfl, hsince, rfl⟩
  · next hc =>
    rw [h.continues, Bool.not_eq_true] at hc
    exact ⟨_, rfl, (Record.stateSince_of_idle hc).symm, (Nat.sub_self now).symm⟩

section Times

variable {g : Graph} {node : Graph.Node} {state : Graph.State} {next : Nat}

/-- The time of an option at its run. -/
theorem elapsed_eq (h : a.Recalls past cycle i)
    (ht : g.Turns ⟨cycle + 1, now⟩ i node state next a a') :
    a'.elapsed = now - Record.activeSince i now past := by
  rw [ht.elapsed_eq, Activation.start_elapsed, h.start_since]

/-- The time of a state at its run. -/
theorem stateTime?_eq (h : a.Recalls past cycle i)
    (ht : g.Turns ⟨cycle + 1, now⟩ i node state next a a') (hi : node.initial < a.clocks.length) :
    a'.stateTime? a'.executed = some (now - Record.stateSince i a'.executed now past) := by
  obtain ⟨clock, hclock, hsince, helapsed⟩ := h.start_clock hi now
  have hstate : a'.stateTime? a'.executed = (a.start ⟨cycle + 1, now⟩ node.initial).stateTime?
      (a.start ⟨cycle + 1, now⟩ node.initial).executed := by
    rw [stateTime?, ht.clocks_eq, ht.executed_eq]
    exact finish_stateTime?
  rw [hstate, stateTime?, hclock, Option.map_some, helapsed, hsince, ht.executed_eq]

end Times

/-- **A run of an option is recorded as it happens.** -/
theorem turns (h : a.Recalls past cycle i) {g : Graph} {node : Graph.Node} {state : Graph.State}
    {next : Nat} (ht : g.Turns ⟨cycle + 1, now⟩ i node state next a a')
    (hi : node.initial < a.clocks.length) (hk : next < a.clocks.length)
    {trace : List (Moment σ)} (hstate : (Record.cycle now trace).state? i = some a'.executed)
    (hnext : (Record.cycle now trace).next? i = some next) :
    a'.Recalls (.cycle now trace :: past) (cycle + 1) i := by
  have hran : (Record.cycle now trace).ran i = true := by rw [Record.ran, hstate]; rfl
  have hcontinues : a'.continues (cycle + 1 + 1) = true := by
    simp [Activation.continues, ht.lastCycle_eq]
  refine ⟨by simp [hcontinues, hran], by simp [hcontinues, hnext, ht.active_eq], fun _ now' => ?_,
    fun _ now' => ?_⟩
  · rw [Record.activeSince_cons hran rfl, ht.since_eq, h.start_since]
  · obtain ⟨clock, hclock, hsince, -⟩ := h.start_clock hi now
    rw [ht.active_eq, ht.clocks_eq, finish_clock (by simpa using hk),
      Record.stateSince_cons hran rfl, Record.switchesTo, hstate, hnext, ht.executed_eq]
    by_cases hself : next = (a.start ⟨cycle + 1, now⟩ node.initial).executed
    · subst hself
      exact ⟨clock, by simpa using hclock, by simpa using hsince⟩
    · exact ⟨_, if_neg hself, by simp [Ne.symm hself]⟩

end Recalls

end Activation

/-! ### Runs of an engine -/

/-- Whether a call forgets activation. -/
def Call.forgets : Call σ → Bool
  | .reset => true
  | .create _ => true
  | _ => false

namespace Engine

variable {e e' : Engine σ} {now : Nat} {trace : List (Moment σ)} {past : List (Record σ)}

/-- The next cycle runs at a reading of the clock, has a trace, and takes the engine `e` to `e'`. -/
def Traced (e : Engine σ) (now : Nat) (trace : List (Moment σ)) (e' : Engine σ) : Prop :=
  e.execute now = (.ok (), e') ∧ ∃ l m, e.loaded = some l ∧
    Traces ⟨e.environment, l.graph⟩ ⟨e.cycle + 1, now⟩ (.option l.root) 0
      { e.machine l with assigned := PerDomain.ofFn fun _ => [] } trace m ∧
    e' = { e.withMachine l m with cycle := e.cycle + 1 }

/-- The trace of a cycle is one of the graph in use. -/
theorem Traced.traces {l : Loaded} (ht : e.Traced now trace e') (hl : e.loaded = some l) :
    ∃ m, Traces ⟨e.environment, l.graph⟩ ⟨e.cycle + 1, now⟩ (.option l.root) 0
        { e.machine l with assigned := PerDomain.ofFn fun _ => [] } trace m ∧
      e' = { e.withMachine l m with cycle := e.cycle + 1 } := by
  obtain ⟨-, l₀, m, hl₀, htrace, rfl⟩ := ht
  obtain rfl := Option.some_inj.1 (hl.symm.trans hl₀)
  exact ⟨m, htrace, rfl⟩

/-- Every cycle has a trace. -/
theorem exists_traced (h : e.execute now = (.ok (), e')) : ∃ trace, e.Traced now trace e' := by
  obtain ⟨events, l, m, hl, hruns, he⟩ := cycles_of_execute h
  obtain ⟨trace, htrace⟩ := hruns.exists_trace
  exact ⟨trace, h, l, m, hl, htrace, he⟩

/-- If there is a graph, the next cycle has a trace. -/
theorem InRange.exists_traced {l : Loaded} (h : e.InRange) (hl : e.loaded = some l) (now : Nat) :
    ∃ trace e', e.Traced now trace e' := by
  obtain ⟨e', he⟩ := execute_succeeds h hl now
  obtain ⟨trace, htrace⟩ := Engine.exists_traced he
  exact ⟨trace, e', htrace⟩

/-- What an engine keeps of its options is what a history tells. -/
def Recalls (past : List (Record σ)) (e : Engine σ) : Prop :=
  ∀ l ∈ e.loaded, ∀ (i : Nat) (a : Activation), l.options[i]? = some a → a.Recalls past e.cycle i

/-- **Some calls have a history.** -/
inductive History (e : Engine σ) : List (Call σ) → List (Record σ) → Prop
  | start : History e [] []
  | cycle {calls : List (Call σ)} {past : List (Record σ)} {now : Nat} {trace : List (Moment σ)}
      {e' : Engine σ} (h : History e calls past) (hc : (e.after calls).Traced now trace e') :
      History e (calls ++ [.execute now]) (.cycle now trace :: past)
  /-- There is no graph, so no cycle runs. -/
  | refuse {calls : List (Call σ)} {past : List (Record σ)} {now : Nat} {error : Misuse}
      (h : History e calls past) (hc : ((e.after calls).execute now).1 = .error error) :
      History e (calls ++ [.execute now]) past
  | forget {calls : List (Call σ)} {past : List (Record σ)} {call : Call σ}
      (h : History e calls past) (hc : call.forgets = true) :
      History e (calls ++ [call]) (.forgotten :: past)
  | rest {calls : List (Call σ)} {past : List (Record σ)} {call : Call σ}
      (h : History e calls past) (hc : call.forgets = false) (hx : ∀ now, call ≠ .execute now) :
      History e (calls ++ [call]) past

theorem after_append (e : Engine σ) (calls : List (Call σ)) (c : Call σ) :
    e.after (calls ++ [c]) = (e.after calls).call c := List.foldl_append

/-- All calls have a history. -/
theorem exists_history (e : Engine σ) (calls : List (Call σ)) : ∃ past, e.History calls past := by
  induction calls using List.reverseRecOn with
  | nil => exact ⟨[], .start⟩
  | append_singleton calls c ih =>
    obtain ⟨past, h⟩ := ih
    cases hc : c.forgets with
    | true => exact ⟨_, .forget h hc⟩
    | false =>
      by_cases hx : ∃ now, c = .execute now
      · obtain ⟨now, rfl⟩ := hx
        rcases he : (e.after calls).execute now with ⟨error | ⟨⟩, e'⟩
        · exact ⟨past, .refuse h (congrArg Prod.fst he)⟩
        · obtain ⟨trace, htrace⟩ := exists_traced he
          exact ⟨_, .cycle h htrace⟩
      · exact ⟨past, .rest h hc fun now e => hx ⟨now, e⟩⟩

/-! ### Every run is recorded as it happens -/

namespace Recalls

/-- After a cycle an engine recalls it. -/
theorem cycle (h : e.Recalls past) (hr : e.InRange) (hp : e.Past) (ht : e.Traced now trace e') :
    e'.Recalls (.cycle now trace :: past) := by
  obtain ⟨-, l, m, hl, htrace, rfl⟩ := ht
  rintro _ ⟨⟩ i a' (ha' : m.options[i]? = some a')
  have hagrees := htrace.agrees nofun
  cases hran : a'.ranIn (e.cycle + 1) with
  | true =>
    obtain ⟨node, state, next, a, ha, hturns, hselects⟩ :=
      htrace.turns ha' hran (hp.not_ran hl now i)
    obtain ⟨depth, k, time, stateTime, henters⟩ :=
      htrace.enters_iff.2 ⟨hp.not_ran hl now i, a', ha', hran⟩
    have hfits := (hr.loaded l hl).options i node a hturns.node_eq ha
    have hnode := (hr.loaded l hl).program.options node (Registry.at?_mem hturns.node_eq)
    refine (h l hl i a ha).turns hturns ?_ ?_ (Record.state?_eq hagrees ha' henters)
      (Record.next?_eq hagrees ha' hselects)
    · rw [hfits.clocks]
      exact hnode.initial
    · rw [hfits.clocks]
      exact hturns.next_lt
  | false =>
    have ha := htrace.runs.unran ha' hran
    have hpast := hp.options l hl a' (List.mem_of_getElem? ha)
    have hidle := Record.idle hagrees ha' hran now
    have hcontinues : a'.continues (e.cycle + 1 + 1) = false := by
      rw [Activation.continues, Option.any_eq_false]
      intro n hn
      have := hpast n hn
      exact decide_eq_false (by omega)
    exact .idle hcontinues hidle.1 hidle.2

/-- An engine that has forgotten activation recalls that. -/
theorem forgotten (e : Engine σ) (past : List (Record σ)) :
    e.reset.Recalls (.forgotten :: past) := by
  intro l hl i a ha
  obtain ⟨l₀, -, rfl⟩ := Option.map_eq_some_iff.1 hl
  obtain ⟨b, -, rfl⟩ := Option.map_eq_some_iff.1 (List.getElem?_map.symm.trans ha)
  exact .idle rfl rfl rfl

/-- Other calls leave options as they are. -/
theorem rest {c : Call σ} (h : e.Recalls past) (hc : c.forgets = false)
    (hx : ∀ now, c ≠ .execute now) : (e.call c).Recalls past := by
  cases c with
  | execute now => exact absurd rfl (hx now)
  | reset | create => cases hc
  | selectAgent name =>
    rw [call]
    obtain ⟨-, _, he⟩ | ⟨l, agent, root, hl, -, he⟩ := e.selectAgent_cases name
    · rw [he]
      exact h
    · rw [he]
      rintro _ ⟨⟩
      exact h l hl
  | selectRoot name =>
    rw [call]
    obtain ⟨-, _, he⟩ | ⟨l, root, hl, -, he⟩ := e.selectRoot_cases name
    · rw [he]
      exact h
    · rw [he]
      rintro _ ⟨⟩
      exact h l hl
  | resetOutputs => exact h
  | activeBehaviors =>
    rw [call, e.activeBehaviors_eq]
    exact h
  | host f => exact h

end Recalls

/-- **An engine recalls its history**, whatever calls it has taken. -/
theorem History.recalls {calls : List (Call σ)} (h : e.History calls past) (hr : e.InRange)
    (hp : e.Past) (h₀ : e.Recalls []) : (e.after calls).Recalls past := by
  induction h with
  | start => exact h₀
  | @cycle calls _ now _ e' _ hc ih =>
    rw [after_append, call, hc.1]
    exact ih.cycle (hr.after calls) (hp.after calls) hc
  | refuse _ hc ih =>
    obtain ⟨_, hcall⟩ := call_execute_of_error hc
    rw [after_append, hcall]
    exact ih
  | @forget calls past call _ hc ih =>
    rw [after_append]
    cases call with
    | reset => exact .forgotten _ past
    | create source =>
      rw [Engine.call, create]
      cases Graph.ofSource (e.after calls).limits (e.after calls).environment source with
      | error =>
        intro _ h
        cases h
      | ok g => exact .forgotten _ past
    | _ => cases hc
  | rest _ hc hx ih =>
    rw [after_append]
    exact ih.rest hc hx

/-- An engine recalls its history from the beginning. -/
theorem History.recalls_new {limits : Limits} {environment : Environment σ} {world : World σ}
    {calls : List (Call σ)} (h : (Engine.new limits environment world).History calls past) :
    ((Engine.new limits environment world).after calls).Recalls past :=
  h.recalls (.new limits environment world) (.new limits environment world) nofun

end Engine

end BehaviorEngine
