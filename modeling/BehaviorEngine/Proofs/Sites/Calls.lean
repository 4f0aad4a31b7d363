import BehaviorEngine.Proofs.Cycle.Places
import BehaviorEngine.Proofs.Expr.Parts
import BehaviorEngine.Proofs.Host.Log

/-!
The call sites of a graph. A call site stands in an expression, where it reads an input symbol, or
it is an action that runs a basic behavior or activates an option. Its path leads to it alone: paths
of different parts branch off from one another, so no two call sites have the same one.
-/

namespace BehaviorEngine

variable {σ : Type}

/-! ### Call sites -/

/-- A call site: its path, what it passes arguments to, and for which parameters in which order. -/
structure CallSite where
  path : Path
  callee : Callee
  keys : List (Domain × Nat)

mutual

/-- The call sites of an expression at a path. -/
def Expr.calls (path : Path) : {d : Domain} → Expr d → List CallSite
  | _, .literal _ _ => []
  | _, .parameter _ _ => []
  | d, .input _ i bindings =>
    ⟨path, .input d i, bindings.map Binding.key⟩ :: Binding.calls path 0 bindings
  | _, .output _ _ => []
  | _, .choice condition yes no =>
    condition.calls (0 :: path) ++ (yes.calls (1 :: path) ++ no.calls (2 :: path))
  | _, .arithmetic _ left right => left.calls (0 :: path) ++ right.calls (1 :: path)
  | _, .stateTime => []
  | _, .optionTime => []
  | _, .connective _ operands => Expr.allCalls path 0 operands
  | _, .not operand => operand.calls (0 :: path)
  | _, .relation _ left right => left.calls (0 :: path) ++ right.calls (1 :: path)
  | _, .sameElement left right => left.calls (0 :: path) ++ right.calls (1 :: path)
  | _, .reachedTarget => []
termination_by structural _ e => e

/-- The call sites of the operands of a connective from the `k`-th on. -/
def Expr.allCalls (path : Path) (k : Nat) : List (Expr .boolean) → List CallSite
  | [] => []
  | e :: es => e.calls (k :: path) ++ Expr.allCalls path (k + 1) es
termination_by structural es => es

/-- The call sites in the bindings of a call site from the `k`-th on. -/
def Binding.calls (path : Path) (k : Nat) : List Binding → List CallSite
  | [] => []
  | .mk _ _ e :: bs => e.calls (k :: path) ++ Binding.calls path (k + 1) bs
termination_by structural bs => bs

end

mutual

/-- The call sites of a decision tree at a path. -/
def Statement.calls (path : Path) : Statement → List CallSite
  | .goto _ => []
  | .branch condition yes otherwise =>
    condition.calls (0 :: path) ++ (yes.calls (1 :: path) ++ otherwise.calls (2 :: path))

/-- The call sites of an alternative at a path. -/
def Alternative.calls (path : Path) : Alternative → List CallSite
  | .elseIf condition yes otherwise =>
    condition.calls (0 :: path) ++ (yes.calls (1 :: path) ++ otherwise.calls (2 :: path))
  | .last statement => statement.calls path

end

/-- The call sites of an action at a path. -/
def Action.calls (path : Path) : Action → List CallSite
  | .activate o bindings =>
    ⟨path, .option o, bindings.map Binding.key⟩ :: Binding.calls path 0 bindings
  | .behave b bindings =>
    ⟨path, .behavior b, bindings.map Binding.key⟩ :: Binding.calls path 0 bindings
  | .assign _ value => value.calls path

/-- A graph has a call site in one of the actions of a state or in its decision tree. -/
def Graph.HasCall (g : Graph) (call : CallSite) : Prop :=
  ∃ i k state, g.state? i k = some state ∧
    ((∃ (n : Nat) (a : Action), state.actions[n]? = some a ∧ call ∈ a.calls [n, k, i]) ∨
      call ∈ state.decision.calls [state.actions.length, k, i])

/-! ### Paths -/

/-- Paths that part at a step do not lead to the same place. -/
theorem Path.ne_of_suffix {path s t : Path} {j k : Nat} (hjk : j ≠ k) (hs : (j :: path) <:+ s)
    (ht : (k :: path) <:+ t) : s ≠ t := by
  rintro rfl
  have := (List.suffix_of_suffix_length_le hs ht (by simp)).eq_of_length (by simp)
  exact hjk (List.cons.inj this).1

/-- A path does not lead through one of its continuations. -/
theorem Path.not_suffix_cons {path : Path} {k : Nat} : ¬ (k :: path) <:+ path :=
  fun h => Nat.not_succ_le_self _ h.length_le

namespace CallSite

/-- **Call sites at a path**: their paths lead through that path, and no two are the same. -/
structure Sited (path : Path) (calls : List CallSite) : Prop where
  below : ∀ call ∈ calls, path <:+ call.path
  nodup : (calls.map CallSite.path).Nodup

/-- **Call sites that branch off a path** at the `k`-th step or a later one. -/
structure Branch (path : Path) (k : Nat) (calls : List CallSite) : Prop where
  below : ∀ call ∈ calls, ∃ j, k ≤ j ∧ (j :: path) <:+ call.path
  nodup : (calls.map CallSite.path).Nodup

variable {path : Path} {k : Nat} {xs ys : List CallSite}

theorem Sited.nil : Sited path [] := ⟨nofun, .nil⟩

theorem Branch.nil : Branch path k [] := ⟨nofun, .nil⟩

theorem Branch.single (h : Sited (k :: path) xs) : Branch path k xs :=
  ⟨fun call hcall => ⟨k, Nat.le_refl k, h.below call hcall⟩, h.nodup⟩

/-- A branch at a step, and those that follow. -/
theorem Branch.cons (h : Sited (k :: path) xs) (hs : Branch path (k + 1) ys) :
    Branch path k (xs ++ ys) := by
  refine ⟨fun call hcall => ?_, ?_⟩
  · rcases List.mem_append.1 hcall with hcall | hcall
    · exact ⟨k, Nat.le_refl k, h.below call hcall⟩
    · obtain ⟨j, hj, hsuffix⟩ := hs.below call hcall
      exact ⟨j, by omega, hsuffix⟩
  · rw [List.map_append, List.nodup_append]
    refine ⟨h.nodup, hs.nodup, fun s hs' t ht => ?_⟩
    obtain ⟨x, hx, rfl⟩ := List.mem_map.1 hs'
    obtain ⟨y, hy, rfl⟩ := List.mem_map.1 ht
    obtain ⟨j, hj, hsuffix⟩ := hs.below y hy
    exact Path.ne_of_suffix (by omega) (h.below x hx) hsuffix

theorem Branch.sited (h : Branch path k xs) : Sited path xs := by
  refine ⟨fun call hcall => ?_, h.nodup⟩
  obtain ⟨j, -, hsuffix⟩ := h.below call hcall
  exact (List.suffix_cons j path).trans hsuffix

/-- What branches off a path does not lead to the path itself. -/
theorem Branch.path_ne (h : Branch path k xs) {call : CallSite} (hcall : call ∈ xs) :
    call.path ≠ path := by
  obtain ⟨j, -, hsuffix⟩ := h.below call hcall
  exact fun hp => Path.not_suffix_cons (hp ▸ hsuffix)

/-- A call site at a path, and those in its bindings. -/
theorem Branch.call (h : Branch path 0 xs) (callee : Callee) (keys : List (Domain × Nat)) :
    Sited path (⟨path, callee, keys⟩ :: xs) := by
  refine ⟨List.forall_mem_cons.2 ⟨List.suffix_rfl, h.sited.below⟩, ?_⟩
  rw [List.map_cons, List.nodup_cons]
  refine ⟨fun hmem => ?_, h.nodup⟩
  obtain ⟨call, hcall, hp⟩ := List.mem_map.1 hmem
  exact h.path_ne hcall hp

theorem Sited.eq_of_path (h : Sited path xs) {x y : CallSite} (hx : x ∈ xs) (hy : y ∈ xs)
    (hp : x.path = y.path) : x = y := List.inj_on_of_nodup_map h.nodup hx hy hp

end CallSite

open CallSite

mutual

/-- **The call sites of an expression are at its path.** -/
theorem Expr.sited (path : Path) : {d : Domain} → (e : Expr d) → Sited path (e.calls path)
  | _, .literal _ _ | _, .parameter _ _ => .nil
  | _, .input _ _ bindings => (Binding.branch path 0 bindings).call _ _
  | _, .output _ _ => .nil
  | _, .choice c y n =>
    (Branch.cons (Expr.sited _ c) (.cons (Expr.sited _ y) (.single (Expr.sited _ n)))).sited
  | _, .arithmetic _ l r | _, .relation _ l r | _, .sameElement l r =>
    (Branch.cons (Expr.sited _ l) (.single (Expr.sited _ r))).sited
  | _, .stateTime | _, .optionTime | _, .reachedTarget => .nil
  | _, .connective _ es => (Expr.branch path 0 es).sited
  | _, .not e => (Branch.single (Expr.sited _ e)).sited
termination_by structural _ e => e

theorem Expr.branch (path : Path) (k : Nat) (es : List (Expr .boolean)) :
    Branch path k (Expr.allCalls path k es) := by
  cases es with
  | nil => exact .nil
  | cons e es => exact .cons (Expr.sited _ e) (Expr.branch path (k + 1) es)
termination_by structural es

theorem Binding.branch (path : Path) (k : Nat) (bs : List Binding) :
    Branch path k (Binding.calls path k bs) := by
  cases bs with
  | nil => exact .nil
  | cons b bs =>
    cases b with
    | mk _ _ e => exact .cons (Expr.sited _ e) (Binding.branch path (k + 1) bs)
termination_by structural bs

end

mutual

/-- The call sites of a decision tree are at its path. -/
theorem Statement.sited (path : Path) (t : Statement) : Sited path (t.calls path) := by
  cases t with
  | goto => exact .nil
  | branch condition yes otherwise =>
    exact (Branch.cons (Expr.sited _ condition)
      (.cons (Statement.sited _ yes) (.single (Alternative.sited _ otherwise)))).sited

theorem Alternative.sited (path : Path) (t : Alternative) : Sited path (t.calls path) := by
  cases t with
  | elseIf condition yes otherwise =>
    exact (Branch.cons (Expr.sited _ condition)
      (.cons (Statement.sited _ yes) (.single (Alternative.sited _ otherwise)))).sited
  | last statement => exact Statement.sited path statement

end

/-- The call sites of an action are at its path. -/
theorem Action.sited (path : Path) (a : Action) : Sited path (a.calls path) := by
  cases a with
  | activate _ bindings | behave _ bindings => exact (Binding.branch path 0 bindings).call _ _
  | assign _ value => exact Expr.sited path value

theorem Expr.mem_allCalls {path : Path} {c : CallSite} {k : Nat} {es : List (Expr .boolean)}
    (h : c ∈ Expr.allCalls path k es) : ∃ e ∈ es, ∃ path', c ∈ e.calls path' := by
  induction es generalizing k with
  | nil => cases h
  | cons e es ih =>
    rcases List.mem_append.1 h with h | h
    · exact ⟨e, List.mem_cons_self, _, h⟩
    · obtain ⟨e', he, hc⟩ := ih h
      exact ⟨e', List.mem_cons_of_mem _ he, hc⟩

theorem Binding.mem_calls {path : Path} {c : CallSite} {k : Nat} {bs : List Binding}
    (h : c ∈ Binding.calls path k bs) : ∃ b ∈ bs, ∃ path', c ∈ b.expr.2.calls path' := by
  induction bs generalizing k with
  | nil => cases h
  | cons b bs ih =>
    cases b with
    | mk kind j e =>
      rcases List.mem_append.1 h with h | h
      · exact ⟨_, List.mem_cons_self, _, h⟩
      · obtain ⟨b', hb, hc⟩ := ih h
        exact ⟨b', List.mem_cons_of_mem _ hb, hc⟩

/-- The call sites of an expression read input symbols. -/
theorem Expr.callee_of_mem_calls {path : Path} {c : CallSite} {d : Domain} (e : Expr d)
    (h : c ∈ e.calls path) : ∃ d i, c.callee = .input d i := by
  induction e using Expr.induction generalizing path with
  | step e ih =>
    cases e with
    | input t i bindings =>
      rcases List.mem_cons.1 h with rfl | h
      · exact ⟨_, i, rfl⟩
      · obtain ⟨b, hb, path', hc⟩ := Binding.mem_calls h
        exact ih _ (List.mem_map_of_mem hb) hc
    | choice c y n =>
      rcases List.mem_append.1 h with h | h
      · exact ih ⟨_, c⟩ (by simp [Expr.operands]) h
      · rcases List.mem_append.1 h with h | h
        · exact ih ⟨_, y⟩ (by simp [Expr.operands]) h
        · exact ih ⟨_, n⟩ (by simp [Expr.operands]) h
    | arithmetic _ l r | relation _ l r | sameElement l r =>
      rcases List.mem_append.1 h with h | h
      · exact ih ⟨_, l⟩ (by simp [Expr.operands]) h
      · exact ih ⟨_, r⟩ (by simp [Expr.operands]) h
    | connective op es =>
      obtain ⟨e, he, path', hc⟩ := Expr.mem_allCalls h
      exact ih _ (List.mem_map_of_mem he) hc
    | not e => exact ih ⟨_, e⟩ (by simp [Expr.operands]) h
    | _ => cases h

theorem Binding.callee_of_mem_calls {path : Path} {c : CallSite} {k : Nat} {bs : List Binding}
    (h : c ∈ Binding.calls path k bs) : ∃ d i, c.callee = .input d i := by
  obtain ⟨b, -, path', hc⟩ := Binding.mem_calls h
  exact Expr.callee_of_mem_calls _ hc

mutual

theorem Statement.callee_of_mem_calls {path : Path} {c : CallSite} {t : Statement}
    (h : c ∈ t.calls path) : ∃ d i, c.callee = .input d i := by
  cases t with
  | goto => cases h
  | branch condition yes otherwise =>
    rcases List.mem_append.1 h with h | h
    · exact Expr.callee_of_mem_calls condition h
    · rcases List.mem_append.1 h with h | h
      · exact Statement.callee_of_mem_calls h
      · exact Alternative.callee_of_mem_calls h

theorem Alternative.callee_of_mem_calls {path : Path} {c : CallSite} {t : Alternative}
    (h : c ∈ t.calls path) : ∃ d i, c.callee = .input d i := by
  cases t with
  | elseIf condition yes otherwise =>
    rcases List.mem_append.1 h with h | h
    · exact Expr.callee_of_mem_calls condition h
    · rcases List.mem_append.1 h with h | h
      · exact Statement.callee_of_mem_calls h
      · exact Alternative.callee_of_mem_calls h
  | last statement => exact Statement.callee_of_mem_calls (t := statement) h

end

/-- **A path leads to one call site of a graph.** -/
theorem Graph.HasCall.eq_of_path {g : Graph} {x y : CallSite} (hx : g.HasCall x)
    (hy : g.HasCall y) (hp : x.path = y.path) : x = y := by
  -- Each of the two stands in a part of a state, to which the last three steps of its path lead.
  have hpart : ∀ c, g.HasCall c → ∃ n k i state part, [n, k, i] <:+ c.path ∧
      g.state? i k = some state ∧ Sited [n, k, i] part ∧ c ∈ part ∧
      part = ((state.actions[n]?).elim (state.decision.calls [n, k, i]) (·.calls [n, k, i])) := by
    rintro c ⟨i, k, state, hs, ⟨n, a, ha, hc⟩ | hc⟩
    · exact ⟨n, k, i, state, _, (a.sited _).below c hc, hs, a.sited _, hc, by rw [ha]; rfl⟩
    · exact ⟨_, k, i, state, _, (state.decision.sited _).below c hc, hs, state.decision.sited _, hc,
        by simp⟩
  obtain ⟨n, k, i, state, part, hsuffix, hs, hsited, hmem, hpart₁⟩ := hpart x hx
  obtain ⟨n', k', i', state', part', hsuffix', hs', -, hmem', hpart₂⟩ := hpart y hy
  have hplace := (List.suffix_of_suffix_length_le hsuffix (hp ▸ hsuffix') (by simp)).eq_of_length
    (by simp)
  cases hplace
  obtain rfl := Option.some_inj.1 (hs.symm.trans hs')
  rw [← hpart₁] at hpart₂
  exact hsited.eq_of_path hmem (hpart₂ ▸ hmem') hp

end BehaviorEngine
