import BehaviorEngine.Proofs.Cycle.Log
import BehaviorEngine.Proofs.Host.Bindings

/-!
What a cycle leaves alone. Expressions store nothing at the host; values are stored by assignments
only, and slots of a basic behavior are written only if the behavior is asked to run. An option that
runs changes the clock of the state that ran, and the clock of the state that it turns to.
-/

namespace BehaviorEngine

open Evaluate

variable {σ : Type}

/-! ### Evaluations store nothing -/

/-- Whether the host is asked to store a value. -/
def HostEvent.stores : HostEvent σ → Bool
  | stored .. => true
  | _ => false

section Evaluation

variable {environment : Environment σ} {s : Surroundings σ}

theorem HostEvent.stores_of_mem_call {site : Path} {callee : Callee} {changed : Bool}
    {arguments : List Argument} {w : World σ} {event : HostEvent σ}
    (h : event ∈ HostEvent.call environment site callee changed arguments w) :
    event.stores = false := by
  unfold HostEvent.call at h
  split at h
  · rcases List.mem_pair.1 h with rfl | rfl <;> rfl
  · obtain rfl := List.mem_singleton.1 h
    rfl

theorem HostEvent.stores_of_mem_pass {site : Path} {callee : Callee} {a : Argument}
    {event : HostEvent σ} (h : event ∈ HostEvent.pass site callee a) : event.stores = false := by
  cases callee with
  | option => cases h
  | input | behavior =>
    obtain rfl := List.mem_singleton.1 h
    rfl

theorem Binding.stores_of_mem_log {path : Path} {callee : Callee} {k : Nat} {bs : List Binding}
    (hbs : ∀ b ∈ bs, ∀ path st, ∀ event ∈ b.expr.2.log environment s path st,
      event.stores = false) {st : Store σ} :
    ∀ event ∈ Binding.log environment s path callee k bs st, event.stores = false := by
  intro event he
  rcases Binding.mem_log he with ⟨a, he⟩ | ⟨b, hb, path', st', he⟩
  · exact HostEvent.stores_of_mem_pass he
  · exact hbs b hb path' st' event he

/-- **An expression stores nothing.** -/
theorem Expr.stores_of_mem_log (path : Path) {d : Domain} (e : Expr d) (st : Store σ) :
    ∀ event ∈ e.log environment s path st, event.stores = false := by
  induction e using Expr.induction generalizing path st with
  | step e ih =>
    intro event he
    cases e with
    | input t i bindings =>
      rcases mem_append_next.1 he with he | ⟨_, _, -, he⟩
      · exact Binding.stores_of_mem_log
          (fun b hb path => ih _ (List.mem_map_of_mem hb) path) event he
      · exact HostEvent.stores_of_mem_call he
    | output =>
      obtain rfl := List.mem_singleton.1 he
      rfl
    | _ =>
      obtain ⟨part, hp, he⟩ := (Expr.mem_log rfl).1 he
      exact ih _ (Expr.mem_operands_of_mem_parts hp) _ _ event he

/-- A decision tree stores nothing. -/
theorem Statement.stores_of_mem_log (path : Path) (t : Statement) (st : Store σ) :
    ∀ event ∈ t.log environment s path st, event.stores = false := by
  intro event he
  obtain ⟨part, -, he⟩ := Statement.mem_log.1 he
  exact Expr.stores_of_mem_log _ _ _ event he

/-- A call stores nothing. -/
theorem Binding.stores_of_mem_callLog {path : Path} {callee : Callee} {bs : List Binding}
    {st : Store σ} : ∀ event ∈ Binding.callLog environment s path callee bs st,
      event.stores = false := by
  intro event he
  rcases mem_append_next.1 he with he | ⟨_, _, -, he⟩
  · exact Binding.stores_of_mem_log (fun b _ path => Expr.stores_of_mem_log path _) event he
  · exact HostEvent.stores_of_mem_call he

end Evaluation

/-! ### Outputs and behaviors -/

section Traces

variable {p : Program σ} {c : Cycle} {t : Task} {depth : Nat} {m m' : Machine σ}
  {trace : List (Moment σ)}

/-- **Values are stored by assignments only.** -/
theorem Traces.assigns_of_stored (h : Traces p c t depth m trace m') (hp : t.Placed p.graph)
    {d : Domain} {k : Nat} {x : d.Value} (hx : .stored d k x ∈ traceLog p trace) :
    ∃ (n : Nat) (expression : Expr d), .assigns n k expression x ∈ trace := by
  have hnone : ∀ log : List (HostEvent σ), (∀ event ∈ log, event.stores = false) →
      .stored d k x ∉ log := fun log hlog hmem => nomatch hlog _ hmem
  induction h with
  | again | skipOption | skipBehavior | nil => cases hx
  | enter _ _ hn hb hk hs _ _ _ _ _ ih =>
    subst hb hk
    rw [traceLog_enter (Graph.state?_eq_some.2 ⟨_, hn, hs⟩)] at hx
    rcases List.mem_append.1 hx with hx | hx
    · obtain ⟨n, expression, hmem⟩ := ih (.enter hn hs) hx
      exact ⟨n, expression, by simp [hmem]⟩
    · exact absurd hx (hnone _ (Statement.stores_of_mem_log _ _ _))
  | activate _ _ _ _ _ _ ih =>
    rw [traceLog_cons, Moment.log_action hp.action?] at hx
    rcases List.mem_append.1 hx with hx | hx
    · exact absurd hx (hnone _ Binding.stores_of_mem_callLog)
    · obtain ⟨n, expression, hmem⟩ := ih trivial hx
      exact ⟨n, expression, List.mem_cons_of_mem _ hmem⟩
  | behave =>
    rw [traceLog_behave hp.action?] at hx
    exact absurd hx (hnone _ Binding.stores_of_mem_callLog)
  | @assign i depth j e expression _ _ _ _ y _ _ _ hy =>
    rw [traceLog_assign hp.action?, Action.log, Evaluate.next_eq hy] at hx
    rcases List.mem_append.1 hx with hx | hx
    · exact absurd hx (hnone _ (Expr.stores_of_mem_log _ _ _))
    · cases List.mem_singleton.1 hx
      exact ⟨depth, expression, by simp⟩
  | cons _ _ ih ihs =>
    rw [traceLog_append] at hx
    rcases List.mem_append.1 hx with hx | hx
    · obtain ⟨n, expression, hmem⟩ := ih hp.head hx
      exact ⟨n, expression, List.mem_append_left _ hmem⟩
    · obtain ⟨n, expression, hmem⟩ := ihs hp.tail hx
      exact ⟨n, expression, List.mem_append_right _ hmem⟩

/-- A basic behavior runs because it has been asked to. -/
theorem Traces.requests_of_behaves (h : Traces p c t depth m trace m') {n b : Nat}
    (hb : .behaves n b ∈ trace) : .requests n b ∈ trace := by
  induction h with
  | again | skipOption | nil => cases hb
  | skipBehavior | assign => simp at hb
  | behave => simpa using hb
  | enter _ _ _ _ _ _ _ _ _ _ _ ih | activate _ _ _ _ _ _ ih => simpa using ih (by simpa using hb)
  | cons _ _ ih ihs =>
    rcases List.mem_append.1 hb with hb | hb
    · exact List.mem_append_left _ (ih hb)
    · exact List.mem_append_right _ (ihs hb)

/-- A basic behavior that is not asked to run keeps the cycle of its last run. -/
theorem Traces.behaviors_eq (h : Traces p c t depth m trace m') {b : Nat}
    (hb : ∀ n, .requests n b ∉ trace) : m'.behaviors[b]? = m.behaviors[b]? := by
  induction h with
  | again | skipOption | skipBehavior | nil | assign => rfl
  | @behave _ depth target =>
    have hne : target ≠ b := by
      rintro rfl
      exact hb depth List.mem_cons_self
    simp [hne]
  | enter _ _ _ _ _ _ _ _ _ _ _ ih | activate _ _ _ _ _ _ ih =>
    exact ih fun n hn => hb n (by simp [hn])
  | cons _ _ ih ihs =>
    exact (ihs fun n hn => hb n (List.mem_append_right _ hn)).trans
      (ih fun n hn => hb n (List.mem_append_left _ hn))

/-- **The slots of a basic behavior are written only if it is asked to run.** -/
theorem Traces.requests_of_wrote (hf : p.Fits) (hc : p.Complete)
    (h : Traces p c t depth m trace m') (hp : t.Placed p.graph)
    (ho : ∀ i ∈ t.owner?, m.Ran c i) {site : Path} {b : Nat} {a : Argument}
    (hx : .wrote site (.behavior b) a ∈ traceLog p trace) : ∃ n, .requests n b ∈ trace := by
  have hlogged := h.logged hf hc hp ho
  obtain ⟨arguments, w, hused⟩ :=
    (hlogged.visits site).exists_used (HostEvent.mem_filter_isAt hx rfl) rfl
  have hran : b ∈ (traceLog p trace).filterMap HostEvent.ran? :=
    List.mem_filterMap.2 ⟨_, (List.mem_filter.1 hused).1, rfl⟩
  rw [h.ran?_eq hf hp, behaved, List.mem_filterMap] at hran
  obtain ⟨event, hevent, hbehaved⟩ := hran
  obtain ⟨moment, hmoment, hseen⟩ := List.mem_filterMap.1 hevent
  cases moment with
  | behaves n b' =>
    cases hseen
    cases hbehaved
    exact ⟨n, h.requests_of_behaves hmoment⟩
  | enters | assigns =>
    cases hseen
    cases hbehaved
  | evaluates | requests | selects => cases hseen

end Traces

/-! ### Clocks -/

/-- The start of a run touches only the clock of the state that runs. -/
theorem Activation.start_clocks_of_ne {a : Activation} {c : Cycle} {i k : Nat}
    (h : k ≠ (a.start c i).executed) : (a.start c i).clocks[k]? = a.clocks[k]? := by
  rw [start_executed] at h
  unfold start switch
  split
  · next hc =>
    rw [if_pos hc] at h
    simp [Ne.symm h]
  · next hc =>
    rw [if_neg hc] at h
    simp [Ne.symm h]

/-- **An option that runs changes two clocks at most**: that of the state that ran and, if the
option turns to another state, that of the state it turns to. -/
theorem Graph.Turns.clocks_eq_of_ne {g : Graph} {c : Cycle} {i next k : Nat} {node : Graph.Node}
    {state : Graph.State} {a a' : Activation} (h : g.Turns c i node state next a a')
    (hran : k ≠ a'.executed) (hnext : k = a'.active → a'.active = a'.executed) :
    a'.clocks[k]? = a.clocks[k]? := by
  rw [h.executed_eq] at hran hnext
  rw [h.active_eq] at hnext
  rw [h.clocks_eq, Activation.finish_clocks hnext, Activation.start_clocks_of_ne hran]

end BehaviorEngine
