import BehaviorEngine.Proofs.Cycle.Log
import BehaviorEngine.Proofs.Engine.Readings
import BehaviorEngine.Proofs.Host.Slots

/-!
What call sites find in their slots. A basic behavior runs with the arguments of its call site,
because it runs only once in a cycle. An input symbol is read with the arguments of its call site if
no binding behind another one refers to the symbol again.
-/

namespace BehaviorEngine

open Partial Evaluate

variable {σ : Type}

/-! ### Runs of behaviors -/

section Runs

variable {environment : Environment σ} {reach : CallSite → Prop} {st st' : Store σ}
  {before after : List (HostEvent σ)} {site : Path} {callee : Callee} {arguments : List Argument}
  {w : World σ}

/-- **Before a target is used**, its call site passes all arguments on, and gives notice after that
if they have changed. -/
theorem Logged.before_used
    (h : Logged environment reach st (before ++ .used site callee arguments w :: after) st') :
    ∃ w₁, before.filter (HostEvent.isAt site) =
        arguments.flatMap (HostEvent.pass site callee) ++
          (if callee.gives (st.memory.get? site) arguments then [.told site callee w₁] else []) ∧
      w = if callee.gives (st.memory.get? site) arguments then environment.notify callee w₁
        else w₁ := by
  have hpos : HostEvent.isAt site (.used site callee arguments w) = true := by
    simp [HostEvent.isAt, HostEvent.site?]
  have hvisits := h.visits site
  rw [List.filter_append, List.filter_cons_of_pos hpos] at hvisits
  rcases hvisits with ⟨hnil, -⟩ | ⟨callee', arguments', w₁, -, -, hvisit, -⟩
  · simp at hnil
  · rw [HostEvent.visit, HostEvent.call_eq, ← List.append_assoc] at hvisit
    rcases Evolves.append_eq_append_cons hvisit.symm with ⟨rest, hfront⟩ | ⟨front, hfront, hlast⟩
    · -- Nothing is used before the arguments are passed.
      have hmem : .used site callee arguments w ∈
          before.filter (HostEvent.isAt site) ++ .used site callee arguments w :: rest := by simp
      rw [← hfront] at hmem
      rcases List.mem_append.1 hmem with hmem | hmem
      · obtain ⟨a, -, ha⟩ := List.mem_flatMap.1 hmem
        cases callee' <;> simp [HostEvent.pass] at ha
      · split at hmem <;> simp at hmem
    · rcases List.singleton_eq_append_iff.1 hlast with ⟨rfl, hused⟩ | ⟨-, hused⟩
      · obtain ⟨hused, -⟩ := List.cons.inj hused
        cases hused
        exact ⟨w₁, hfront.trans (List.append_nil _), rfl⟩
      · cases hused

/-- What a search finds at most once is found at one place. -/
theorem eq_of_nodup_filterMap {α β : Type} {f : α → Option β} {xs : List α}
    (hn : (xs.filterMap f).Nodup) {x y : α} (hx : x ∈ xs) (hy : y ∈ xs) {z : β}
    (hxz : f x = some z) (hyz : f y = some z) : x = y := by
  have hpairs := List.pairwise_filterMap.1 hn
  have hall : ∀ x ∈ xs, ∀ y ∈ xs, f x = some z → f y = some z → x = y :=
    List.Pairwise.forall_of_forall_of_flip (fun _ _ _ _ => rfl)
      (hpairs.imp fun h hx hy => absurd rfl (h z hx z hy))
      (hpairs.imp fun h hy hx => absurd rfl (h z hx z hy))
  exact hall x hx y hy hxz hyz

/-- **A basic behavior runs with the arguments of its call site**, if it runs only once. -/
theorem Logged.finds_behavior (hy : environment.CellsApart) {b : Nat}
    (h : Logged environment reach st (before ++ .used site (.behavior b) arguments w :: after) st')
    (hn : ((before ++ .used site (.behavior b) arguments w :: after).filterMap
      HostEvent.ran?).Nodup)
    (hbinds : environment.Binds (.behavior b) arguments) :
    environment.Finds (.behavior b) arguments w := by
  have hne : ∀ o, Callee.behavior b ≠ .option o := nofun
  obtain ⟨parameters, -, hbound⟩ := hbinds.resolve_left fun ⟨o, ho⟩ => hne o ho
  obtain ⟨w₁, hfilter, -⟩ := h.before_used
  rw [HostEvent.flatMap_pass hne] at hfilter
  obtain ⟨w₀, hbefore, hrest⟩ := h.happens.split
  cases hrest with
  | cons hused _ =>
    cases hused
    refine hbefore.finds hy hfilter (fun a ha => ?_) hbound.nodup fun site' a ha => ?_
    · split at ha <;> simp at ha
    · -- The site that writes runs the behavior, too.
      have hmem := HostEvent.mem_filter_isAt
        (List.mem_append_left (.used site (.behavior b) arguments w :: after) ha) rfl
      obtain ⟨arguments', w', hused⟩ := (h.visits site').exists_used hmem rfl
      have hsame := eq_of_nodup_filterMap hn (List.mem_filter.1 hused).1
        (List.mem_append_right _ (List.mem_cons_self ..)) rfl rfl
      cases hsame
      rfl

end Runs

/-! ### Readings -/

section Readings

variable {environment : Environment σ} {s : Surroundings σ} {own : Domain → Nat} {site : Path}
  {k : Domain} {i : Nat} {as : List Argument} {w : World σ}

/-- A call site that passes its arguments on gives notice if they have changed. -/
theorem Binding.pass_eq {path : Path} {d : Domain} {j : Nat} {symbol : InputSymbol σ d}
    (hi : (environment.symbols.inputs.get d).at? j = some symbol) {bindings : List Binding}
    {arguments : List Argument} {st st₁ : Store σ}
    (h : Binding.values s path (writeSlot symbol.parameters) 0 bindings st =
      some (arguments, st₁)) :
    ∃ st₂, Binding.pass s path symbol bindings st = some (arguments, st₂) ∧
      st₂.world = if Callee.gives (.input d j) (st₁.memory.get? path) arguments
        then environment.notify (.input d j) st₁.world else st₁.world := by
  have hnotify : environment.notify (.input d j) st₁.world =
      symbol.parametersChanged.getD id st₁.world := by
    cases hn : symbol.parametersChanged <;> simp [Environment.notify, hi, hn]
  have hgives : Callee.gives (.input d j) (st₁.memory.get? path) arguments =
    st₁.memory.isChange path arguments := rfl
  have hremember : remember path arguments st₁ = some (st₁.memory.isChange path arguments,
    ⟨st₁.world, st₁.memory.remember path arguments⟩) := rfl
  rw [hgives, hnotify]
  cases hc : st₁.memory.isChange path arguments with
  | true =>
    rw [hc] at hremember
    exact ⟨⟨symbol.parametersChanged.getD id st₁.world, st₁.memory.remember path arguments⟩,
      bind_eq_some.2 ⟨_, _, h, bind_eq_some.2 ⟨_, _, hremember, rfl⟩⟩, rfl⟩
  | false =>
    rw [hc] at hremember
    exact ⟨_, bind_eq_some.2 ⟨_, _, h, bind_eq_some.2 ⟨_, _, hremember, rfl⟩⟩, rfl⟩

/-- The readings that the log of some bindings tells are those of the trace, if that holds for their
expressions. -/
theorem Binding.read_of_used {path : Path} {d : Domain} {j : Nat}
    {write : Argument → Evaluate σ Unit} (hwrite : environment.write (.input d j) = write) {n : Nat}
    {bs : List Binding} (hbs : ∀ b ∈ bs, ∀ path st,
      .used site (.input k i) as w ∈ b.expr.2.log environment s path st →
      .read k i as w ∈ b.expr.2.trace s path st) {st : Store σ}
    (h : .used site (.input k i) as w ∈ Binding.log environment s path (.input d j) n bs st) :
    .read k i as w ∈ Binding.trace s path write d j n bs st := by
  induction bs generalizing n st with
  | nil => cases h
  | cons b bs ih =>
    cases b with
    | mk kind m e =>
      rw [List.forall_mem_cons] at hbs
      refine mem_append_next.2 ((mem_append_next.1 h).imp (hbs.1 _ st) ?_)
      rintro ⟨x, st₁, he, h⟩
      refine ⟨x, st₁, he, List.mem_cons_of_mem _ ?_⟩
      obtain ⟨u, st₂, hw, h⟩ := mem_next.1 ((List.mem_append.1 h).resolve_left (by
        simp [HostEvent.pass]))
      exact mem_next.2 ⟨u, st₂, hwrite ▸ hw, ih hbs.2 h⟩

/-- **The readings that a log tells are those of the trace.** -/
theorem Expr.read_of_used (hs : s.symbols = environment.symbols) (path : Path) {d : Domain}
    (e : Expr d) (hf : e.Fits environment.symbols own) (st : Store σ)
    (h : .used site (.input k i) as w ∈ e.log environment s path st) :
    .read k i as w ∈ e.trace s path st := by
  induction e using Expr.induction generalizing path st with
  | step e ih =>
    have ih : ∀ x ∈ e.operands, ∀ path st,
        .used site (.input k i) as w ∈ x.2.log environment s path st →
        .read k i as w ∈ x.2.trace s path st :=
      fun x hx path => ih x hx path (hf.operands hx)
    cases e with
    | input t j bindings =>
      obtain ⟨symbol, hj, -⟩ := hf
      have hwrite : environment.write (.input _ j) = writeSlot symbol.parameters :=
        Environment.write_of_parameters? (Environment.parameters?_input hj)
      rw [Expr.log, hwrite] at h
      rw [Expr.trace, hs, hj]
      rcases mem_append_next.1 h with h | ⟨arguments, st₁, hvalues, h⟩
      · exact List.mem_append_left _
          (Binding.read_of_used hwrite (fun b hb => ih _ (List.mem_map_of_mem hb)) h)
      · obtain ⟨-, hcallee, rfl, rfl⟩ := HostEvent.used_mem_call h
        cases hcallee
        obtain ⟨st₂, hpass, hworld⟩ := Binding.pass_eq hj hvalues
        refine List.mem_append_right _ (mem_next.2 ⟨as, st₂, hpass, ?_⟩)
        rw [hworld]
        exact List.mem_singleton_self _
    | output => simp [Expr.log] at h
    | _ =>
      obtain ⟨part, hp, h⟩ := (Expr.mem_log rfl).1 h
      exact (Expr.mem_trace rfl).2
        ⟨part, hp, ih _ (Expr.mem_operands_of_mem_parts hp) _ _ h⟩

/-- **In a separate expression symbols are read with the arguments of their call sites.** -/
theorem Expr.finds (hy : environment.CellsApart) (hs : s.symbols = environment.symbols)
    {path : Path} {d : Domain} {e : Expr d} (hf : e.Fits environment.symbols own)
    (hsep : e.separate = true) {st : Store σ}
    (h : .used site (.input k i) as w ∈ e.log environment s path st) :
    environment.Finds (.input k i) as w := by
  have hread := Expr.read_of_used hs path e hf st h
  rw [← hs] at hf
  have hfinds := Expr.findsArguments (hs ▸ hy.slotsApart) path e hf hsep st _ hread
  intro a ha slot hslot
  refine hfinds a ha slot ?_
  rw [hs]
  exact (Environment.slot?_input ..).symm.trans hslot

/-! ### Expressions of a graph -/

/-- The symbols that are read for some bindings are read by their expressions. -/
theorem Binding.exists_of_used {path : Path} {callee : Callee} {n : Nat} {bs : List Binding}
    {st : Store σ}
    (h : .used site (.input k i) as w ∈ Binding.log environment s path callee n bs st) :
    ∃ x ∈ bs.map Binding.expr, ∃ path' st',
      .used site (.input k i) as w ∈ x.2.log environment s path' st' := by
  rcases Binding.mem_log h with ⟨a, h⟩ | ⟨b, hb, path', st', h⟩
  · cases callee <;> simp [HostEvent.pass] at h
  · exact ⟨_, List.mem_map_of_mem hb, path', st', h⟩

/-- The symbols that are read for an action are read by its expressions. -/
theorem Action.exists_of_used {path : Path} {a : Action} {st : Store σ}
    (h : .used site (.input k i) as w ∈ a.log environment s path st) :
    ∃ x ∈ a.exprs, ∃ path' st', .used site (.input k i) as w ∈
      x.2.log environment s path' st' := by
  cases a with
  | activate o bindings | behave b bindings =>
    rcases mem_append_next.1 h with h | ⟨arguments, st₁, -, h⟩
    · exact Binding.exists_of_used h
    · cases (HostEvent.used_mem_call h).2.1
  | assign j value =>
    rcases mem_append_next.1 h with h | ⟨x, st₁, -, h⟩
    · exact ⟨_, List.mem_singleton_self _, _, _, h⟩
    · simp at h

end Readings

/-- No binding in a graph that stands behind another one refers to the symbol of its call site. -/
def Graph.Separate (g : Graph) : Prop :=
  ∀ n ∈ g.options.values, ∀ x ∈ n.exprs, x.2.separate = true

section Cycles

variable {p : Program σ} {c : Cycle} {t : Task} {depth : Nat} {m m' : Machine σ}
  {trace : List (Moment σ)} {site : Path}

/-- Expressions are evaluated with the symbols of the environment. -/
theorem Traces.evaluates_symbols (h : Traces p c t depth m trace m') {i : Nat} {path : Path}
    {s : Surroundings σ} {m₁ : Machine σ} (hx : .evaluates i path s m₁ ∈ trace) :
    s.symbols = p.environment.symbols := by
  induction h with
  | again | skipOption | nil => cases hx
  | skipBehavior => simp at hx
  | enter _ _ _ _ _ _ _ _ hsur _ _ ih =>
    simp only [List.mem_cons, List.mem_append, List.not_mem_nil, or_false, reduceCtorEq,
      false_or, Moment.evaluates.injEq] at hx
    rcases hx with hx | ⟨-, -, rfl, -⟩
    · exact ih hx
    · exact Run.surroundings_symbols hsur
  | activate _ _ hsur _ _ _ ih =>
    rcases List.mem_cons.1 hx with hx | hx
    · cases hx
      exact Run.surroundings_symbols hsur
    · exact ih hx
  | behave _ _ _ hsur _ | assign hsur _ _ =>
    simp only [List.mem_cons, List.not_mem_nil, or_false, reduceCtorEq, false_or] at hx
    cases hx
    exact Run.surroundings_symbols hsur
  | cons _ _ ih ihs => exact (List.mem_append.1 hx).elim ih ihs

/-- The symbols that are read in a cycle are read by expressions of the graph. -/
theorem Moment.exists_of_used {x : Moment σ} {d : Domain} {i : Nat} {as : List Argument}
    {w : World σ} (h : .used site (.input d i) as w ∈ x.log p) :
    ∃ o path s m, x = .evaluates o path s m ∧ ∃ n ∈ p.graph.options.values, ∃ e ∈ n.exprs,
      ∃ path' st, .used site (.input d i) as w ∈ e.2.log p.environment s path' st := by
  cases x with
  | evaluates o path s m =>
    refine ⟨o, path, s, m, rfl, ?_⟩
    rw [Moment.log] at h
    cases ha : p.graph.action? path with
    | some a =>
      rw [ha] at h
      obtain ⟨n, k, j, state, -, hs, hmem⟩ := Graph.action?_eq_some.1 ha
      obtain ⟨node, hn, hstate⟩ := Graph.state?_eq_some.1 hs
      obtain ⟨e, he, hlog⟩ := Action.exists_of_used h
      refine ⟨node, Registry.at?_mem hn, e, ?_, hlog⟩
      exact List.mem_flatMap.2 ⟨state, Registry.at?_mem hstate, List.mem_append_left _
        (List.mem_flatMap.2 ⟨a, List.mem_of_getElem? hmem, he⟩)⟩
    | none =>
      rw [ha] at h
      cases ht : p.graph.decision? path with
      | none =>
        rw [ht] at h
        cases h
      | some t =>
        rw [ht] at h
        obtain ⟨j, k, state, hs, rfl⟩ := Graph.decision?_eq_some ht
        obtain ⟨node, hn, hstate⟩ := Graph.state?_eq_some.1 hs
        obtain ⟨part, hp, hlog⟩ := Statement.mem_log.1 h
        refine ⟨node, Registry.at?_mem hn, ⟨_, part.expression⟩, ?_, part.site, part.store, hlog⟩
        exact List.mem_flatMap.2 ⟨state, Registry.at?_mem hstate,
          List.mem_append_right _ (Statement.mem_exprs_of_mem_parts hp)⟩
  | enters | requests | behaves | assigns | selects => cases h

/-- **In a separate graph symbols are read with the arguments of their call sites.** -/
theorem Traces.finds_input (hy : p.environment.CellsApart) (hf : p.Fits)
    (hsep : p.graph.Separate) (h : Traces p c t depth m trace m') {d : Domain} {i : Nat}
    {as : List Argument} {w : World σ} (hu : .used site (.input d i) as w ∈ traceLog p trace) :
    p.environment.Finds (.input d i) as w := by
  obtain ⟨x, hx, hu⟩ := List.mem_flatMap.1 hu
  obtain ⟨o, path, s, m₁, rfl, n, hn, e, he, path', st, hu⟩ := Moment.exists_of_used hu
  exact Expr.finds hy (h.evaluates_symbols hx) ((hf.options n hn).exprs he) (hsep n hn e he) hu

end Cycles

end BehaviorEngine
