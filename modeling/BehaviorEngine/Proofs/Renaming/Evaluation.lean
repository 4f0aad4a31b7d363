import BehaviorEngine.Proofs.Renaming.Graphs
import BehaviorEngine.Proofs.Sites.Log

/-!
Evaluation does not depend on the order of registration. An expression for the other environment has
the same value, leaves the same store, and asks the same of the host in the same order.
-/

namespace BehaviorEngine

open Evaluate

variable {σ : Type} {ρ : Renaming}

/-! ### What the host is asked to do -/

/-- The target of a call site in the other environment. -/
def Callee.rename (ρ : Renaming) : Callee → Callee
  | .input d i => .input d (ρ.input d i)
  | .behavior b => .behavior (ρ.behavior b)
  | .option o => .option o

/-- **The same request to the host**, as it is told in the other environment. -/
def HostEvent.rename (ρ : Renaming) : HostEvent σ → HostEvent σ
  | wrote site callee a => wrote site (callee.rename ρ) a
  | told site callee w => told site (callee.rename ρ) w
  | used site callee arguments w => used site (callee.rename ρ) arguments w
  | fetched d k => fetched d (ρ.output d k)
  | stored d k x => stored d (ρ.output d k) x

/-- Slots are found under the same positions. -/
theorem writeSlot_rename (ps : Parameters String) :
    (writeSlot (ps.rename ρ) : Argument → Evaluate σ Unit) = writeSlot ps := by
  funext a
  rw [writeSlot, writeSlot, Parameters.get_rename, Registry.at?_map]
  cases (ps.get a.domain).at? a.index <;> rfl

namespace Environment.Renames

variable {e e' : Environment σ}

theorem parameters?_eq (h : e.Renames ρ e') (callee : Callee) :
    e'.parameters? (callee.rename ρ) = (e.parameters? callee).map (Parameters.rename ρ) := by
  cases callee with
  | option => rfl
  | input d i =>
    rw [Callee.rename, parameters?, parameters?]
    simp only [(h.symbols.inputs d).at? i, Option.map_map]
    rfl
  | behavior b =>
    rw [Callee.rename, parameters?, parameters?]
    simp only [h.behaviors.at? b, Option.map_map]
    rfl

theorem write_eq (h : e.Renames ρ e') (callee : Callee) :
    e'.write (callee.rename ρ) = e.write callee := by
  rw [write, write, h.parameters?_eq callee]
  cases e.parameters? callee with
  | none => rfl
  | some ps => exact writeSlot_rename ps

theorem notify_eq (h : e.Renames ρ e') (callee : Callee) :
    e'.notify (callee.rename ρ) = e.notify callee := by
  funext w
  cases callee with
  | option => rfl
  | input d i =>
    rw [Callee.rename, notify, notify]
    simp only [(h.symbols.inputs d).at? i]
    cases (e.symbols.inputs.get d).at? i <;> rfl
  | behavior b =>
    rw [Callee.rename, notify, notify]
    simp only [h.behaviors.at? b]
    cases e.behaviors.at? b <;> rfl

/-- Calls end alike. -/
theorem call_eq (h : e.Renames ρ e') (site : Path) (callee : Callee) (changed : Bool)
    (arguments : List Argument) (w : World σ) :
    HostEvent.call e' site (callee.rename ρ) changed arguments w =
      (HostEvent.call e site callee changed arguments w).map (HostEvent.rename ρ) := by
  rw [HostEvent.call, HostEvent.call, h.notify_eq callee]
  cases changed <;> rfl

end Environment.Renames

theorem Callee.gives_rename (callee : Callee) (last : Option (List Argument))
    (arguments : List Argument) :
    (callee.rename ρ).gives last arguments = callee.gives last arguments := by
  cases callee <;> rfl

theorem HostEvent.pass_rename (site : Path) (callee : Callee) (a : Argument) :
    (HostEvent.pass site (callee.rename ρ) a : List (HostEvent σ)) =
      (HostEvent.pass site callee a).map (HostEvent.rename ρ) := by
  cases callee <;> rfl

/-- What follows an evaluation corresponds, if it does for every outcome. -/
theorem Evaluate.log_next {α : Type} {x : Evaluate σ α} {st : Store σ}
    {f f' : α → Store σ → List (HostEvent σ)} {xs xs' : List (HostEvent σ)}
    (hx : xs' = xs.map (HostEvent.rename ρ))
    (hf : ∀ a st', f' a st' = (f a st').map (HostEvent.rename ρ)) :
    xs' ++ x.next st f' = (xs ++ x.next st f).map (HostEvent.rename ρ) := by
  rw [hx, List.map_append, Evaluate.next, Evaluate.next]
  cases x st with
  | none => rfl
  | some r => exact congrArg _ (hf r.1 r.2)

/-! ### Values -/

/-- **The same surroundings**, but for the order of the symbols. -/
structure Surroundings.Renames (ρ : Renaming) (s s' : Surroundings σ) : Prop where
  symbols : s.symbols.Renames ρ s'.symbols
  parameters : s'.parameters = s.parameters
  stateTime : s'.stateTime = s.stateTime
  optionTime : s'.optionTime = s.optionTime
  reachedTarget : s'.reachedTarget = s.reachedTarget

section Values

variable {s s' : Surroundings σ}

theorem Expr.connected_rename {path : Path} {op : Connective} {k : Nat}
    {es : List (Expr .boolean)}
    (hes : ∀ e ∈ es, ∀ path, (e.rename ρ).value s' path = e.value s path) :
    Expr.connected s' path op k (Expr.renameAll ρ es) = Expr.connected s path op k es := by
  induction es generalizing k with
  | nil => rfl
  | cons e es ih =>
    rw [List.forall_mem_cons] at hes
    rw [Expr.renameAll, Expr.connected, Expr.connected, hes.1, ih hes.2]

theorem Binding.values_rename_of_exprs {path : Path} {write : Argument → Evaluate σ Unit} {k : Nat}
    {bs : List Binding}
    (hbs : ∀ b ∈ bs, ∀ path, (b.expr.2.rename ρ).value s' path = b.expr.2.value s path) :
    Binding.values s' path write k (Binding.renameAll ρ bs) = Binding.values s path write k bs := by
  induction bs generalizing k with
  | nil => rfl
  | cons b bs ih =>
    cases b with
    | mk d i e =>
      obtain ⟨he, hbs⟩ := List.forall_mem_cons.1 hbs
      have he : (e.rename ρ).value s' (k :: path) = e.value s (k :: path) := he _
      rw [Binding.renameAll, Binding.values, Binding.values, he, ih hbs]

/-- **An expression has the same value in both environments.** -/
theorem Expr.value_rename (hs : s.Renames ρ s') (path : Path) {d : Domain} (e : Expr d) :
    (e.rename ρ).value s' path = e.value s path := by
  induction e using Expr.induction generalizing path with
  | @step d e ih =>
    rw [Expr.rename.eq_def]
    cases e with
    | literal => rw [Expr.value, Expr.value]
    | parameter => rw [Expr.value, Expr.value, hs.parameters]
    | input t i bindings =>
      rw [Expr.value, Expr.value, (hs.symbols.inputs d).at? i]
      cases (s.symbols.inputs.get d).at? i with
      | none => rfl
      | some symbol =>
        rw [Option.map_some, Partial.lift_some, Partial.lift_some, pure_bind, pure_bind,
          Binding.values_rename_of_exprs fun b hb => ih _ (List.mem_map_of_mem hb)]
        rw [show writeSlot (symbol.rename ρ).parameters = writeSlot symbol.parameters from
          writeSlot_rename symbol.parameters]
        rfl
    | output t k =>
      rw [Expr.value, Expr.value, (hs.symbols.outputs d).at? k]
      cases (s.symbols.outputs.get d).at? k <;> rfl
    | choice c y n =>
      rw [Expr.value, Expr.value, ih ⟨_, c⟩ (by simp [Expr.operands]),
        ih ⟨_, y⟩ (by simp [Expr.operands]), ih ⟨_, n⟩ (by simp [Expr.operands])]
    | arithmetic _ l r | relation _ l r | sameElement l r =>
      rw [Expr.value, Expr.value, ih ⟨_, l⟩ (by simp [Expr.operands]),
        ih ⟨_, r⟩ (by simp [Expr.operands])]
    | stateTime => rw [Expr.value, Expr.value, hs.stateTime]
    | optionTime => rw [Expr.value, Expr.value, hs.optionTime]
    | connective op es =>
      rw [Expr.value, Expr.value,
        Expr.connected_rename fun e he => ih _ (List.mem_map_of_mem he)]
    | not e => rw [Expr.value, Expr.value, ih ⟨_, e⟩ (by simp [Expr.operands])]
    | reachedTarget => rw [Expr.value, Expr.value, hs.reachedTarget]

theorem Binding.values_rename (hs : s.Renames ρ s') (path : Path)
    (write : Argument → Evaluate σ Unit) (k : Nat) (bs : List Binding) :
    Binding.values s' path write k (Binding.renameAll ρ bs) = Binding.values s path write k bs :=
  Binding.values_rename_of_exprs fun _ _ path => Expr.value_rename hs path _

mutual

/-- **A decision tree selects the same state in both environments.** -/
theorem Statement.select_rename (hs : s.Renames ρ s') (path : Path) : (t : Statement) →
    (t.rename ρ).select s' path = t.select s path
  | .goto _ => by rw [Statement.rename, Statement.select, Statement.select]
  | .branch c y o => by
    rw [Statement.rename, Statement.select, Statement.select, Expr.value_rename hs _ c,
      Statement.select_rename hs _ y, Alternative.select_rename hs _ o]

theorem Alternative.select_rename (hs : s.Renames ρ s') (path : Path) : (t : Alternative) →
    (t.rename ρ).select s' path = t.select s path
  | .elseIf c y o => by
    rw [Alternative.rename, Alternative.select, Alternative.select, Expr.value_rename hs _ c,
      Statement.select_rename hs _ y, Alternative.select_rename hs _ o]
  | .last t => by
    rw [Alternative.rename, Alternative.select, Alternative.select, Statement.select_rename hs _ t]

end

end Values

/-! ### Logs -/

section Logs

variable {s s' : Surroundings σ} {environment environment' : Environment σ}

theorem Expr.connectedLog_rename (hs : s.Renames ρ s') {path : Path} {op : Connective} {k : Nat}
    {es : List (Expr .boolean)} (hes : ∀ e ∈ es, ∀ path st,
      (e.rename ρ).log environment' s' path st =
        (e.log environment s path st).map (HostEvent.rename ρ)) (st : Store σ) :
    Expr.connectedLog environment' s' path op k (Expr.renameAll ρ es) st =
      (Expr.connectedLog environment s path op k es st).map (HostEvent.rename ρ) := by
  induction es generalizing k st with
  | nil => rfl
  | cons e es ih =>
    rw [List.forall_mem_cons] at hes
    rw [Expr.renameAll, Expr.connectedLog, Expr.connectedLog, Expr.value_rename hs _ e]
    refine log_next (hes.1 _ st) fun x st' => ?_
    rw [apply_ite (List.map (HostEvent.rename ρ)), ih hes.2, List.map_nil]

theorem Binding.log_rename (hs : s.Renames ρ s')
    (he : environment.Renames ρ environment') {path : Path} {callee : Callee} {k : Nat}
    {bs : List Binding} (hbs : ∀ b ∈ bs, ∀ path st,
      (b.expr.2.rename ρ).log environment' s' path st =
        (b.expr.2.log environment s path st).map (HostEvent.rename ρ)) (st : Store σ) :
    Binding.log environment' s' path (callee.rename ρ) k (Binding.renameAll ρ bs) st =
      (Binding.log environment s path callee k bs st).map (HostEvent.rename ρ) := by
  induction bs generalizing k st with
  | nil => rfl
  | cons b bs ih =>
    cases b with
    | mk d i e =>
      rw [List.forall_mem_cons] at hbs
      rw [Binding.renameAll, Binding.log, Binding.log, Expr.value_rename hs _ e, he.write_eq]
      refine log_next (hbs.1 _ st) fun x st₁ => ?_
      exact log_next (HostEvent.pass_rename _ _ _) fun _ st₂ => ih hbs.2 st₂

/-- **An expression asks the same of the host in both environments.** -/
theorem Expr.log_rename (hs : s.Renames ρ s') (he : environment.Renames ρ environment')
    (path : Path) {d : Domain} (e : Expr d) (st : Store σ) :
    (e.rename ρ).log environment' s' path st =
      (e.log environment s path st).map (HostEvent.rename ρ) := by
  induction e using Expr.induction generalizing path st with
  | @step d e ih =>
    rw [Expr.rename.eq_def]
    cases e with
    | input t i bindings =>
      rw [Expr.log, Expr.log, Binding.values_rename hs,
        show Callee.input d (ρ.input d i) = (Callee.input d i).rename ρ from rfl, he.write_eq]
      refine log_next (Binding.log_rename hs he
        (fun b hb => ih _ (List.mem_map_of_mem hb)) st) fun arguments st' => ?_
      rw [Callee.gives_rename, he.call_eq]
    | output =>
      rw [Expr.log, Expr.log]
      rfl
    | choice c y n =>
      rw [Expr.log, Expr.log, Expr.value_rename hs _ c]
      refine log_next (ih ⟨_, c⟩ (by simp [Expr.operands]) _ st) fun b st' => ?_
      cases b with
      | true => exact ih ⟨_, y⟩ (by simp [Expr.operands]) _ st'
      | false => exact ih ⟨_, n⟩ (by simp [Expr.operands]) _ st'
    | arithmetic _ l r | relation _ l r | sameElement l r =>
      rw [Expr.log, Expr.log, Expr.value_rename hs _ l]
      exact log_next (ih ⟨_, l⟩ (by simp [Expr.operands]) _ st) fun _ =>
        ih ⟨_, r⟩ (by simp [Expr.operands]) _
    | connective op es =>
      rw [Expr.log, Expr.log,
        Expr.connectedLog_rename hs (fun e he => ih _ (List.mem_map_of_mem he))]
    | not e => rw [Expr.log, Expr.log, ih ⟨_, e⟩ (by simp [Expr.operands])]
    | _ => rw [Expr.log, Expr.log, List.map_nil]

/-- **A call site asks the same of the host in both environments.** -/
theorem Binding.callLog_rename (hs : s.Renames ρ s')
    (he : environment.Renames ρ environment') (path : Path) (callee : Callee) (bs : List Binding)
    (st : Store σ) :
    Binding.callLog environment' s' path (callee.rename ρ) (bs.map (Binding.rename ρ)) st =
      (Binding.callLog environment s path callee bs st).map (HostEvent.rename ρ) := by
  rw [Binding.callLog, Binding.callLog, ← Binding.renameAll_eq, Binding.values_rename hs,
    he.write_eq]
  refine log_next (Binding.log_rename hs he
    (fun _ _ path => Expr.log_rename hs he path _) st) fun arguments st' => ?_
  rw [Callee.gives_rename, he.call_eq]

mutual

theorem Statement.log_rename (hs : s.Renames ρ s')
    (he : environment.Renames ρ environment') (path : Path) : (t : Statement) → (st : Store σ) →
    (t.rename ρ).log environment' s' path st =
      (t.log environment s path st).map (HostEvent.rename ρ)
  | .goto _, _ => by rw [Statement.rename, Statement.log, Statement.log, List.map_nil]
  | .branch c y o, st => by
    rw [Statement.rename, Statement.log, Statement.log, Expr.value_rename hs _ c]
    refine log_next (Expr.log_rename hs he _ c st) fun b st' => ?_
    cases b with
    | true => exact Statement.log_rename hs he _ y st'
    | false => exact Alternative.log_rename hs he _ o st'

theorem Alternative.log_rename (hs : s.Renames ρ s')
    (he : environment.Renames ρ environment') (path : Path) : (t : Alternative) → (st : Store σ) →
    (t.rename ρ).log environment' s' path st =
      (t.log environment s path st).map (HostEvent.rename ρ)
  | .elseIf c y o, st => by
    rw [Alternative.rename, Alternative.log, Alternative.log, Expr.value_rename hs _ c]
    refine log_next (Expr.log_rename hs he _ c st) fun b st' => ?_
    cases b with
    | true => exact Statement.log_rename hs he _ y st'
    | false => exact Alternative.log_rename hs he _ o st'
  | .last t, st => by
    rw [Alternative.rename, Alternative.log, Alternative.log, Statement.log_rename hs he _ t st]

end

/-- **An action asks the same of the host in both environments.** -/
theorem Action.log_rename (hs : s.Renames ρ s')
    (he : environment.Renames ρ environment') (path : Path) (a : Action) (st : Store σ) :
    (a.rename ρ).log environment' s' path st =
      (a.log environment s path st).map (HostEvent.rename ρ) := by
  cases a with
  | activate o bindings => exact Binding.callLog_rename hs he path (.option o) bindings st
  | behave b bindings => exact Binding.callLog_rename hs he path (.behavior b) bindings st
  | assign k value =>
    rw [Action.rename, Action.log, Action.log, Expr.value_rename hs _ value]
    exact log_next (Expr.log_rename hs he _ value st) fun _ _ => rfl

end Logs

end BehaviorEngine
