import BehaviorEngine.Proofs.Host.Cells
import BehaviorEngine.Proofs.Slots.Trace
import BehaviorEngine.Proofs.Snapshot.Replay

/-!
What a cycle does to output symbols. A symbol is marked as assigned exactly if some state that runs
has an action that assigns it. If nothing else of the host writes the variable behind a symbol, the
variable holds what the last one of these actions computed, and is left alone if there is none.
-/

namespace BehaviorEngine

open Partial

variable {σ : Type}

/-! ### Variables of one output symbol -/

/-- A change of the host leaves a variable as it is. -/
def Spares (d : Domain) (cell : String) (f : World σ → World σ) : Prop :=
  ∀ w, (f w).read d cell = w.read d cell

/-- **An output symbol has a variable to itself**: the variable is no slot, and whatever else the
host does when it is called leaves it alone. -/
structure Environment.Owns (environment : Environment σ) (d : Domain) (k : Nat) (cell : String) :
    Prop where
  /-- Other output symbols are stored elsewhere. -/
  store : ∀ (e : Domain) (j : Nat) (symbol : OutputSymbol σ e),
    (environment.symbols.outputs.get e).at? j = some symbol → (e, j) ≠ (d, k) →
    ∀ x, Spares d cell (symbol.binding.write x)
  fetch : ∀ (e : Domain) (j : Nat) (symbol : OutputSymbol σ e),
    (environment.symbols.outputs.get e).at? j = some symbol →
    Spares d cell fun w => (symbol.binding.read w).2
  input : ∀ (e : Domain) (j : Nat) (symbol : InputSymbol σ e),
    (environment.symbols.inputs.get e).at? j = some symbol →
    (Spares d cell fun w => (symbol.binding.read w).2) ∧
      ∀ notify ∈ symbol.parametersChanged, Spares d cell notify
  inputSlot : ∀ (e : Domain) (j : Nat) (symbol : InputSymbol σ e),
    (environment.symbols.inputs.get e).at? j = some symbol →
    ∀ (kind : Domain) (i : Nat) (x : Parameter String kind),
      (symbol.parameters.get kind).at? i = some x → (d, cell) ≠ (kind, x.slot)
  behavior : ∀ (j : Nat) (behavior : BasicBehavior σ),
    environment.behaviors.at? j = some behavior →
    Spares d cell behavior.run ∧ Spares d cell behavior.parametersChanged
  behaviorSlot : ∀ (j : Nat) (behavior : BasicBehavior σ),
    environment.behaviors.at? j = some behavior →
    ∀ (kind : Domain) (i : Nat) (x : Parameter String kind),
      (behavior.parameters.get kind).at? i = some x → (d, cell) ≠ (kind, x.slot)

/-- Running a basic behavior leaves the variable alone. -/
theorem Environment.Owns.call_spares {environment : Environment σ} {d : Domain} {k j : Nat}
    {cell : String} (hy : environment.Owns d k cell) {behavior : BasicBehavior σ}
    (hb : environment.behaviors.at? j = some behavior) (changed : Bool) :
    Spares d cell (behavior.call changed) := by
  obtain ⟨hrun, hchanged⟩ := hy.behavior _ _ hb
  intro w
  cases changed with
  | false => exact hrun w
  | true => exact (hrun _).trans (hchanged w)

section Evaluation

variable {environment : Environment σ} {d : Domain} {k : Nat} {cell : String}
  {s : Surroundings σ} {own : Domain → Nat} {st st' : Store σ}

/-- An evaluation leaves the variable alone. -/
theorem Evolves.spares (hy : environment.Owns d k cell) {events : List (SlotEvent σ)}
    (h : Evolves environment.symbols st events st') :
    st'.world.read d cell = st.world.read d cell := by
  induction h with
  | nil => rfl
  | append _ _ ih ih' => exact ih'.trans ih
  | wrote hs hp st => exact World.read_write_of_ne _ _ _ _ (hy.inputSlot _ _ _ hs _ _ _ hp)
  | read hs _ _ _ _ hw _ ih =>
    obtain ⟨hread, hnotify⟩ := hy.input _ _ _ hs
    rw [← ih]
    rcases hw with rfl | ⟨notify, hn, rfl⟩
    · exact hread _
    · exact (hread _).trans (hnotify notify hn _)
  | output hs st => exact hy.fetch _ _ _ hs _

theorem Expr.value_spares (hy : environment.Owns d k cell) (hs : s.symbols = environment.symbols)
    {path : Path} {e : Domain} {expression : Expr e} (hf : expression.Fits s.symbols own)
    {x : e.Value} (h : expression.value s path st = some (x, st')) :
    st'.world.read d cell = st.world.read d cell := by
  have hevolves := expression.evolves path hf h
  rw [hs] at hevolves
  exact hevolves.spares hy

/-- Writing an argument into another slot leaves the variable alone. -/
theorem Evaluate.writeSlot_spares {parameters : Parameters String} (hslot : ∀ (kind : Domain)
    (i : Nat) (x : Parameter String kind), (parameters.get kind).at? i = some x →
      (d, cell) ≠ (kind, x.slot)) {a : Argument}
    (h : Evaluate.writeSlot parameters a st = some ((), st')) :
    st'.world.read d cell = st.world.read d cell := by
  obtain ⟨parameter, hparameter, rfl⟩ := writeSlot_eq_some h
  exact World.read_write_of_ne _ _ _ _ (hslot _ _ _ hparameter)

/-- The bindings of a call site leave the variable alone if its writes do. -/
theorem Binding.values_spares (hy : environment.Owns d k cell)
    (hs : s.symbols = environment.symbols) {room : Domain → Nat} {path : Path}
    {write : Argument → Evaluate σ Unit} (hw : ∀ a st st', write a st = some ((), st') →
      st'.world.read d cell = st.world.read d cell) {j : Nat} {bs : List Binding}
    (hf : ∀ b ∈ bs, b.Fits s.symbols own room) {arguments : List Argument}
    (h : Binding.values s path write j bs st = some (arguments, st')) :
    st'.world.read d cell = st.world.read d cell := by
  induction bs generalizing j st arguments with
  | nil =>
    obtain ⟨-, rfl⟩ := pure_eq_some.1 h
    rfl
  | cons b bs ih =>
    cases b with
    | mk kind i expression =>
      obtain ⟨x, st₁, st₂, rest, hx, hwrite, hrest, -⟩ := Binding.values_cons_eq_some h
      have hvalue := Expr.value_spares hy hs (hf _ List.mem_cons_self).2 hx
      exact (ih (fun b hb => hf b (List.mem_cons_of_mem _ hb)) hrest).trans
        ((hw _ _ _ hwrite).trans hvalue)

theorem Statement.select_spares (hy : environment.Owns d k cell)
    (hs : s.symbols = environment.symbols) {states : Nat} {path : Path} {t : Statement}
    (hf : t.Fits s.symbols own states) {i : Nat} (h : t.select s path st = some (i, st')) :
    st'.world.read d cell = st.world.read d cell :=
  ((Statement.leads h).invariant (I := fun st' => st'.world.read d cell = st.world.read d cell) rfl
    fun _ hp _ _ hvalue hpart => (Expr.value_spares hy hs
      (hf.exprs (Statement.mem_exprs_of_mem_parts hp)) hvalue).trans hpart).2

end Evaluation

/-! ### The last assignment -/

/-- The value that a moment assigns to an output symbol. -/
def Moment.assigned? (d : Domain) (k : Nat) : Moment σ → Option d.Value
  | .assigns _ (d := e) j _ x => if h : e = d then if j = k then some (h ▸ x) else none else none
  | _ => none

/-- The value that a trace assigns last to an output symbol. -/
def lastAssigned (d : Domain) (k : Nat) (trace : List (Moment σ)) : Option d.Value :=
  (trace.filterMap (Moment.assigned? d k)).getLast?

theorem lastAssigned_append {d : Domain} {k : Nat} {xs ys : List (Moment σ)} :
    lastAssigned d k (xs ++ ys) = (lastAssigned d k ys).or (lastAssigned d k xs) := by
  rw [lastAssigned, List.filterMap_append, List.getLast?_append]
  rfl

theorem lastAssigned_cons_of_none {d : Domain} {k : Nat} {x : Moment σ} {xs : List (Moment σ)}
    (h : x.assigned? d k = none) : lastAssigned d k (x :: xs) = lastAssigned d k xs := by
  rw [lastAssigned, List.filterMap_cons_none h]
  rfl

@[simp] theorem lastAssigned_assigns {d : Domain} {k depth : Nat} {expression : Expr d}
    {x : d.Value} :
    lastAssigned d k [(.assigns depth k expression x : Moment σ)] = some x := by
  simp [lastAssigned, Moment.assigned?]

theorem lastAssigned_assigns_of_ne {d e : Domain} {j k depth : Nat} {expression : Expr e}
    {x : e.Value} (h : (e, j) ≠ (d, k)) :
    lastAssigned d k [(.assigns depth j expression x : Moment σ)] = none := by
  have hnone : (Moment.assigns depth j expression x : Moment σ).assigned? d k = none := by
    rw [Moment.assigned?]
    split
    · next he =>
      subst he
      have hj : j ≠ k := by
        rintro rfl
        exact h rfl
      exact if_neg hj
    · rfl
  rw [lastAssigned_cons_of_none hnone]
  rfl

/-- The positions in the actions of a task lead somewhere. -/
def Task.Fits (p : Program σ) : Task → Prop
  | .option _ => True
  | .action _ _ _ a => ∃ own, a.Fits p own
  | .actions _ _ _ _ as => ∃ own, ∀ a ∈ as, a.Fits p own

section Traces

variable {p : Program σ} {c : Cycle} {t : Task} {depth : Nat} {m m' : Machine σ}
  {trace : List (Moment σ)} {d : Domain} {k : Nat}

theorem Run.surroundings_symbols {i : Nat} {state : Graph.State} {s : Surroundings σ}
    (h : Run.surroundings p c i state m = some (s, m')) :
    s.symbols = p.environment.symbols := by
  obtain ⟨-, -, -, -, -, rfl⟩ := Run.surroundings_eq_some.1 h
  rfl

/-- **The variable of an output symbol holds what was assigned last.** -/
theorem Traces.read_eq {symbol : OutputSymbol σ d} {cell : String} (hp : p.Fits)
    (hy : p.environment.Owns d k cell)
    (hk : (p.environment.symbols.outputs.get d).at? k = some symbol)
    (hcell : symbol.binding = .cell cell) (h : Traces p c t depth m trace m') (ht : t.Fits p) :
    m'.store.world.read d cell = (lastAssigned d k trace).getD (m.store.world.read d cell) := by
  induction h with
  | again | skipOption | nil | skipBehavior => rfl
  | @enter i _ _ _ _ m m₁ _ _ node state trace s store _ _ hn _ _ hs _ _ hsur hsel _ ih =>
    have hstate := (hp.options node (Registry.at?_mem hn)).states state (Registry.at?_mem hs)
    have hsymbols := Run.surroundings_symbols hsur
    have hspares : store.world.read d cell = m₁.store.world.read d cell :=
      Statement.select_spares hy hsymbols (hsymbols ▸ hstate.decision) hsel
    rw [lastAssigned_cons_of_none rfl, lastAssigned_append]
    exact hspares.trans (ih ⟨_, hstate.actions⟩)
  | @activate _ _ _ _ _ bindings _ _ _ _ s _ store _ _ _ hsur hargs _ _ ih =>
    obtain ⟨own, node, hn, hf⟩ := ht
    have hsymbols := Run.surroundings_symbols hsur
    obtain ⟨st₁, hvalues, hworld⟩ := Run.values_of_argumentsAt hargs
    have hspares : st₁.world.read d cell = _ := Binding.values_spares hy hsymbols
      (fun _ _ _ hwrite => by rw [(pure_eq_some.1 hwrite).2]) (hsymbols ▸ hf) hvalues
    rw [lastAssigned_cons_of_none rfl, ih trivial, ← hspares, ← hworld]
    rfl
  | @behave _ _ _ _ _ _ _ _ behavior _ _ _ _ _ hb hsur hargs =>
    obtain ⟨own, behavior', hb', hf⟩ := ht
    obtain rfl := Option.some_inj.1 (hb.symm.trans hb')
    have hsymbols := Run.surroundings_symbols hsur
    have hspares := Binding.values_spares hy hsymbols
      (fun _ _ _ => Evaluate.writeSlot_spares (hy.behaviorSlot _ _ hb)) (hsymbols ▸ hf) hargs
    exact (hy.call_spares hb _ _).trans hspares
  | @assign _ depth j e expression _ _ m _ x store symbol' hsur hx hj =>
    obtain ⟨own, -, hf, -⟩ := ht
    have hsymbols := Run.surroundings_symbols hsur
    have hspares := Expr.value_spares hy hsymbols (hsymbols ▸ hf) hx
    rw [lastAssigned_cons_of_none rfl]
    by_cases hej : (e, j) = (d, k)
    · cases hej
      obtain rfl := Option.some_inj.1 (hk.symm.trans hj)
      rw [lastAssigned_assigns, hcell]
      exact World.read_write_self _ _ _ _
    · rw [lastAssigned_assigns_of_ne hej]
      exact (hy.store _ _ _ hj hej x _).trans hspares
  | cons _ _ ih ihs =>
    obtain ⟨own, hf⟩ := ht
    rw [lastAssigned_append, Option.getD_or,
      ihs ⟨own, fun a ha => hf a (List.mem_cons_of_mem _ ha)⟩,
      ih ⟨own, hf _ List.mem_cons_self⟩]

end Traces

/-! ### Which symbols are assigned -/

/-- A trace assigns an output symbol. -/
def Assigns (d : Domain) (k : Nat) (trace : List (Moment σ)) : Prop :=
  ∃ (depth : Nat) (expression : Expr d) (x : d.Value), .assigns depth k expression x ∈ trace

/-- A state that ran in a cycle has an action that assigns an output symbol. -/
def Graph.AssignsIn (g : Graph) (options : List Activation) (cycle : Nat) (d : Domain) (k : Nat) :
    Prop :=
  ∃ i node a state, g.options.at? i = some node ∧ options[i]? = some a ∧
    a.ranIn cycle = true ∧ node.states.at? a.executed = some state ∧
    ∃ expression : Expr d, .assign k expression ∈ state.actions

/-- The actions of a task itself. -/
def Task.todo : Task → List Action
  | .option _ => []
  | .action _ _ _ a => [a]
  | .actions _ _ _ _ as => as

section Assigned

variable {p : Program σ} {c : Cycle} {t : Task} {depth : Nat} {m m' : Machine σ}
  {trace : List (Moment σ)} {d : Domain} {k : Nat}

/-- **The symbols that a trace assigns are marked**, besides those that were marked before. -/
theorem Traces.mem_assigned_iff (h : Traces p c t depth m trace m') :
    k ∈ m'.assigned.get d ↔ k ∈ m.assigned.get d ∨ Assigns d k trace := by
  induction h with
  | again | skipOption | nil | skipBehavior | behave => simp [Assigns]
  | enter _ _ _ _ _ _ _ _ _ _ _ ih => simpa [Assigns] using ih
  | activate _ _ _ _ _ _ ih => simpa [Assigns] using ih
  | @assign _ depth j e expression _ _ m _ x _ _ _ _ _ =>
    by_cases hd : d = e
    · subst hd
      simp [Assigns, or_comm]
    · rw [PerDomain.get_modify_of_ne _ _ hd]
      simp [Assigns, hd]
  | cons _ _ ih ihs =>
    rw [ihs, ih, or_assoc]
    simp [Assigns, exists_or]

/-- Whatever is assigned is assigned by an action of the task or of a state that is entered. -/
theorem Traces.assigns_from (h : Traces p c t depth m trace m') {n : Nat} {expression : Expr d}
    {x : d.Value} (hx : .assigns n k expression x ∈ trace) : .assign k expression ∈ t.todo ∨
      ∃ n i j time stateTime node state, .enters n i j time stateTime ∈ trace ∧
        p.graph.options.at? i = some node ∧ node.states.at? j = some state ∧
        .assign k expression ∈ state.actions := by
  induction h with
  | again | skipOption | nil => cases hx
  | skipBehavior | behave => simp at hx
  | @enter i depth j _ time _ _ _ _ node state trace _ _ _ _ hn _ _ hs _ _ _ _ _ ih =>
    refine .inr ?_
    rcases ih (by simpa using hx) with hx | ⟨n, i, j, time, stateTime, node, state, hmem, h⟩
    · exact ⟨_, i, j, _, _, node, state, List.mem_cons_self, hn, hs, hx⟩
    · exact ⟨n, i, j, time, stateTime, node, state, by simp [hmem], h⟩
  | activate _ _ _ _ _ _ ih =>
    rcases ih (by simpa using hx) with hx | ⟨n, i, j, time, stateTime, node, state, hmem, h⟩
    · cases hx
    · exact .inr ⟨n, i, j, time, stateTime, node, state, by simp [hmem], h⟩
  | assign =>
    left
    simp only [List.mem_cons, reduceCtorEq, Moment.assigns.injEq, List.not_mem_nil, or_false,
      false_or] at hx
    obtain ⟨-, rfl, rfl, hexpression, -⟩ := hx
    obtain rfl := eq_of_heq hexpression
    exact List.mem_singleton_self _
  | cons _ _ ih ihs =>
    rcases List.mem_append.1 hx with hx | hx
    · rcases ih hx with hx | ⟨n, i, j, time, stateTime, node, state, hmem, h⟩
      · obtain rfl := List.mem_singleton.1 hx
        exact .inl List.mem_cons_self
      · exact .inr ⟨n, i, j, time, stateTime, node, state, List.mem_append_left _ hmem, h⟩
    · rcases ihs hx with hx | ⟨n, i, j, time, stateTime, node, state, hmem, h⟩
      · exact .inl (List.mem_cons_of_mem _ hx)
      · exact .inr ⟨n, i, j, time, stateTime, node, state, List.mem_append_right _ hmem, h⟩

/-- **What a cycle assigns** is what the states that ran in it assign. -/
theorem Traces.assigns_iff {root : Nat} (h : Traces p c (.option root) depth m trace m')
    (hm : ∀ i, ¬ m.Ran c i) :
    Assigns d k trace ↔ p.graph.AssignsIn m'.options c.number d k := by
  constructor
  · rintro ⟨n, expression, x, hx⟩
    rcases h.assigns_from hx with hx | ⟨n, i, j, time, stateTime, node, state, hmem, hn, hs, ha⟩
    · cases hx
    · obtain ⟨a, hi, hr, rfl, -⟩ := h.agrees nofun _ hmem i rfl
      exact ⟨i, node, a, state, hn, hi, hr, hs, expression, ha⟩
  · rintro ⟨i, node, a, state, hn, hi, hr, hs, expression, ha⟩
    obtain ⟨n, j, time, stateTime, hx⟩ := h.enters_iff.2 ⟨hm i, a, hi, hr⟩
    obtain ⟨a', hi', -, rfl, -⟩ := h.agrees nofun _ hx i rfl
    obtain rfl := Option.some_inj.1 (hi.symm.trans hi')
    obtain ⟨node', state', before, blocks, after, hn', hs', htrace, hadds⟩ := h.followed hx
    obtain rfl := Option.some_inj.1 (hn.symm.trans hn')
    obtain rfl := Option.some_inj.1 (hs.symm.trans hs')
    obtain ⟨block, hblock, x, rfl⟩ := exists_of_forall₂ hadds.flip ha
    -- The moment of the assignment stands in the block of its action.
    have hlisted : .assigns (n + 1) k expression x ∈ trace.filter Moment.isListed := by
      rw [htrace]
      refine List.mem_append_right _ (List.mem_cons_of_mem _ (List.mem_append_left _ ?_))
      exact List.mem_flatten.2 ⟨_, hblock, List.mem_singleton_self _⟩
    exact ⟨n + 1, expression, x, (List.mem_filter.1 hlisted).1⟩

/-- An output symbol is listed if the trace assigns it. -/
theorem listed_output_iff {options : List Activation} {entries : List ActiveBehavior}
    {w w' : World σ} {name : String} (h : replay p options trace w = some (entries, w'))
    (hname : (p.environment.symbols.outputs.get d).name? k = some name) :
    .output d name ∈ entries.map (·.activity.subject) ↔ Assigns d k trace := by
  rw [replay_subjects h, List.mem_filterMap]
  constructor
  · rintro ⟨x, hx, hsubject⟩
    cases x with
    | @assigns depth e j expression y =>
      obtain ⟨name', hname', heq⟩ := Option.map_eq_some_iff.1 hsubject
      cases heq
      obtain rfl := Registry.name?_inj hname hname'
      exact ⟨depth, expression, y, hx⟩
    | enters | requests =>
      obtain ⟨_, -, heq⟩ := Option.map_eq_some_iff.1 hsubject
      cases heq
    | evaluates | behaves | selects => cases hsubject
  · rintro ⟨depth, expression, x, hx⟩
    exact ⟨_, hx, by rw [Moment.subject?, hname, Option.map_some]⟩

end Assigned

end BehaviorEngine
