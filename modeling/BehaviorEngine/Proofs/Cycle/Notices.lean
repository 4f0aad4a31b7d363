import BehaviorEngine.Proofs.Cycle.Yields
import BehaviorEngine.Proofs.Snapshot.Alike

/-!
Notices that do not matter. A call site gives notice only if its arguments are not those that it
remembers. If no notice leads to a world that the engine could ever tell from the one before, then
what an evaluation yields does not depend on what call sites remember.
-/

namespace BehaviorEngine

open Partial Evaluate

variable {σ α β : Type}

/-! ### Hosts -/

/-- **Notices do not matter** to a host: it has worlds that are alike, so that a notice of changed
parameters leads to a world that is like the one before, and worlds that are alike have the same
values wherever the engine reads them, and stay alike whatever the engine does. -/
structure Environment.IgnoresNotices (environment : Environment σ)
    (Same : World σ → World σ → Prop) : Prop where
  equivalence : Equivalence Same
  notify : ∀ (callee : Callee) (w : World σ), Same (environment.notify callee w) w
  input : ∀ (d : Domain) (k : Nat) (symbol : InputSymbol σ d),
    (environment.symbols.inputs.get d).at? k = some symbol → ∀ w w', Same w w' →
    (symbol.binding.read w).1 = (symbol.binding.read w').1 ∧
      Same (symbol.binding.read w).2 (symbol.binding.read w').2
  fetch : ∀ (d : Domain) (k : Nat) (symbol : OutputSymbol σ d),
    (environment.symbols.outputs.get d).at? k = some symbol → ∀ w w', Same w w' →
    (symbol.binding.read w).1 = (symbol.binding.read w').1 ∧
      Same (symbol.binding.read w).2 (symbol.binding.read w').2
  store : ∀ (d : Domain) (k : Nat) (symbol : OutputSymbol σ d),
    (environment.symbols.outputs.get d).at? k = some symbol → ∀ x w w', Same w w' →
    Same (symbol.binding.write x w) (symbol.binding.write x w')
  run : ∀ (k : Nat) (behavior : BasicBehavior σ), environment.behaviors.at? k = some behavior →
    ∀ w w', Same w w' → Same (behavior.run w) (behavior.run w')
  writeSlot : ∀ (callee : Callee) (d : Domain) (i : Nat) (cell : String),
    environment.slot? callee d i = some cell → ∀ (x : d.Value) (w w' : World σ), Same w w' →
    Same (w.write d cell x) (w'.write d cell x)
  readSlot : ∀ (k : Nat) (d : Domain) (i : Nat) (cell : String),
    environment.slot? (.behavior k) d i = some cell → ∀ w w', Same w w' →
    w.read d cell = w'.read d cell

namespace Environment.IgnoresNotices

variable {environment : Environment σ} {Same : World σ → World σ → Prop}

/-- On both sides it does not matter whether notice is given. -/
theorem notify_if (h : environment.IgnoresNotices Same) (callee : Callee) (changed changed' : Bool)
    {w w' : World σ} (hw : Same w w') : Same (if changed then environment.notify callee w else w)
      (if changed' then environment.notify callee w' else w') := by
  have hone : ∀ (changed : Bool) (w : World σ),
      Same (if changed then environment.notify callee w else w) w := by
    intro changed w
    cases changed with
    | false => exact h.equivalence.refl w
    | true => exact h.notify callee w
  exact h.equivalence.trans (hone changed w)
    (h.equivalence.trans hw (h.equivalence.symm (hone changed' w')))

/-- A basic behavior runs alike whether notice is given or not. -/
theorem call (h : environment.IgnoresNotices Same) {k : Nat} {behavior : BasicBehavior σ}
    (hb : environment.behaviors.at? k = some behavior) (changed changed' : Bool) {w w' : World σ}
    (hw : Same w w') : Same (behavior.call changed w) (behavior.call changed' w') := by
  have hcall : ∀ changed w, behavior.call changed w = behavior.run
      (if changed then environment.notify (.behavior k) w else w) := by
    simp [BasicBehavior.call, Environment.notify, hb]
  rw [hcall, hcall]
  exact h.run k behavior hb _ _ (h.notify_if _ _ _ hw)

theorem showsAlike (h : environment.IgnoresNotices Same) : environment.ShowsAlike Same where
  output := h.fetch
  slot := by
    intro k behavior hb d i x hx
    refine h.readSlot k d i x.slot ?_
    simp [Environment.slot?, Environment.parameters?_behavior hb, hx]

end Environment.IgnoresNotices

/-! ### Evaluations -/

/-- From worlds that are alike, two evaluations either both stop, or they have the same value and
lead to worlds that are alike. -/
def Evaluate.Alike (Same : World σ → World σ → Prop) (x y : Evaluate σ α) : Prop :=
  ∀ st st', Same st.world st'.world →
    Option.Rel (fun r r' => r.1 = r'.1 ∧ Same r.2.world r'.2.world) (x st) (y st')

namespace Evaluate.Alike

variable {Same : World σ → World σ → Prop} {x y : Evaluate σ α}

theorem pure (a : α) : Alike Same (pure a : Evaluate σ α) (pure a) :=
  fun _ _ hw => .some ⟨rfl, hw⟩

theorem lift (o : Option α) : Alike Same (liftM o : Evaluate σ α) (liftM o) := by
  intro st st' hw
  cases o with
  | none => exact .none
  | some a => exact .some ⟨rfl, hw⟩

theorem host {f g : World σ → World σ} (h : ∀ w w', Same w w' → Same (f w) (g w')) :
    Alike Same (host f) (host g) := fun _ _ hw => .some ⟨rfl, h _ _ hw⟩

theorem ask {f : World σ → α × World σ}
    (h : ∀ w w', Same w w' → (f w).1 = (f w').1 ∧ Same (f w).2 (f w').2) :
    Alike Same (ask f) (ask f) := fun _ _ hw => .some (h _ _ hw)

theorem bind (h : Alike Same x y) {f g : α → Evaluate σ β} (hf : ∀ a, Alike Same (f a) (g a)) :
    Alike Same (x >>= f) (y >>= g) := by
  intro st st' hw
  have hx := h st st' hw
  change Option.Rel _ ((x st).bind fun r => f r.1 r.2) ((y st').bind fun r => g r.1 r.2)
  generalize x st = o at hx ⊢
  generalize y st' = o' at hx ⊢
  cases hx with
  | none => exact .none
  | @some r r' hr =>
    obtain ⟨a, t⟩ := r
    obtain ⟨_, t'⟩ := r'
    obtain ⟨rfl, ht⟩ := hr
    exact hf a t t' ht

/-- What is looked up is the same on both sides. -/
theorem lift_bind {o : Option α} {f g : α → Evaluate σ β}
    (h : ∀ a, o = some a → Alike Same (f a) (g a)) :
    Alike Same (liftM o >>= f) (liftM o >>= g) := by
  cases o with
  | none => exact fun _ _ _ => .none
  | some a => exact h a rfl

/-- What follows evaluations that are alike is the same if it is from worlds that are alike. -/
theorem next_eq (h : Alike Same x y) {f g : α → Store σ → List β}
    (hf : ∀ a t t', Same t.world t'.world → f a t = g a t') {st st' : Store σ}
    (hw : Same st.world st'.world) : x.next st f = y.next st' g := by
  have hx := h st st' hw
  unfold Evaluate.next
  generalize x st = o at hx ⊢
  generalize y st' = o' at hx ⊢
  cases hx with
  | none => rfl
  | @some r r' hr =>
    obtain ⟨a, t⟩ := r
    obtain ⟨_, t'⟩ := r'
    obtain ⟨rfl, ht⟩ := hr
    exact hf a t t' ht

/-- Evaluations that are alike and have values have the same value. -/
theorem eq_of_eq_some (h : Alike Same x y) {st st' t t' : Store σ} {a b : α}
    (hw : Same st.world st'.world) (hx : x st = some (a, t)) (hy : y st' = some (b, t')) :
    a = b ∧ Same t.world t'.world := by
  have hr := h st st' hw
  rw [hx, hy] at hr
  cases hr with
  | some hr => exact hr

end Evaluate.Alike

/-- From worlds that are alike, an evaluation is alike and yields the same. -/
structure Evaluate.Steady (Same : World σ → World σ → Prop) (x : Evaluate σ α)
    (ys : Store σ → List Yield) : Prop where
  alike : Evaluate.Alike Same x x
  yields : ∀ st st', Same st.world st'.world → ys st = ys st'

namespace Evaluate.Steady

variable {Same : World σ → World σ → Prop} {x : Evaluate σ α} {ys : Store σ → List Yield}

theorem silent (h : Evaluate.Alike Same x x) : Steady Same x fun _ => [] := ⟨h, fun _ _ _ => rfl⟩

theorem bind (h : Steady Same x ys) {f : α → Evaluate σ β} {zs : α → Store σ → List Yield}
    (hf : ∀ a, Steady Same (f a) (zs a)) :
    Steady Same (x >>= f) fun st => ys st ++ x.next st zs where
  alike := h.alike.bind fun a => (hf a).alike
  yields := fun st st' hw => by
    rw [h.yields st st' hw, h.alike.next_eq (fun a => (hf a).yields) hw]

/-- A value that is turned into another one. -/
theorem map (h : Steady Same x ys) (f : α → β) : Steady Same (x >>= fun a => pure (f a)) ys :=
  ⟨h.alike.bind fun _ => .pure _, h.yields⟩

theorem cons (h : Steady Same x ys) (y : Yield) : Steady Same x fun st => y :: ys st :=
  ⟨h.alike, fun st st' hw => congrArg (y :: ·) (h.yields st st' hw)⟩

/-- An expression yields its own value at last. -/
theorem result {s : Surroundings σ} {path : Path} {d : Domain} {e : Expr d}
    (h : Steady Same (e.value s path) ys) :
    Steady Same (e.value s path) fun st => ys st ++ e.result s path st where
  alike := h.alike
  yields := fun st st' hw => by
    have hresult : e.result s path st = e.result s path st' :=
      h.alike.next_eq (fun _ _ _ _ => by rfl) hw
    rw [h.yields st st' hw, hresult]

/-- An expression yields its own value. -/
theorem result_only {s : Surroundings σ} {path : Path} {d : Domain} {e : Expr d}
    (h : Evaluate.Alike Same (e.value s path) (e.value s path)) :
    Steady Same (e.value s path) (e.result s path) := (silent h).result

end Evaluate.Steady

/-! ### Expressions -/

section Expressions

variable {environment : Environment σ} {Same : World σ → World σ → Prop} {s : Surroundings σ}

/-- Whatever a call site remembers, it goes on alike, whether it gives notice or not. -/
theorem Evaluate.alike_notice (hR : environment.IgnoresNotices Same) (callee : Callee)
    {f : World σ → World σ} (hf : ∀ w, f w = environment.notify callee w) (path : Path)
    (arguments : List Argument) :
    Evaluate.Alike Same
      (do if ← remember path arguments then host f
          return arguments)
      (do if ← remember path arguments then host f
          return arguments) := by
  have hresult : ∀ st : Store σ,
      (do if ← remember path arguments then host f
          return arguments : Evaluate σ (List Argument)) st =
        some (arguments, ⟨if st.memory.isChange path arguments then
          environment.notify callee st.world else st.world,
          st.memory.remember path arguments⟩) := by
    intro st
    rw [← hf]
    refine bind_eq_some.2 ⟨st.memory.isChange path arguments,
      ⟨st.world, st.memory.remember path arguments⟩, modifyGet_eq_some.2 rfl, ?_⟩
    cases st.memory.isChange path arguments <;> rfl
  intro st st' hw
  rw [hresult, hresult]
  exact .some ⟨rfl, hR.notify_if callee _ _ hw⟩

/-- An argument is passed on alike. -/
theorem Environment.write_alike (hR : environment.IgnoresNotices Same) (callee : Callee)
    (a : Argument) :
    Evaluate.Alike Same (environment.write callee a) (environment.write callee a) := by
  rw [Environment.write]
  cases hp : environment.parameters? callee with
  | none => exact .pure ()
  | some parameters =>
    refine .lift_bind fun x hx => .host ?_
    refine hR.writeSlot callee a.domain a.index x.slot ?_ a.value
    simp [Environment.slot?, hp, hx]

theorem Expr.connected_steady {path : Path} {op : Connective} {k : Nat}
    {es : List (Expr .boolean)} (hes : ∀ e ∈ es, ∀ path,
      Evaluate.Steady Same (e.value s path) (e.yields environment s path)) :
    Evaluate.Steady Same (Expr.connected s path op k es)
      (Expr.connectedYields environment s path op k es) := by
  induction es generalizing k with
  | nil => exact .silent (.pure _)
  | cons e es ih =>
    rw [List.forall_mem_cons] at hes
    refine (hes.1 _).bind fun x => ?_
    split
    · exact ih hes.2
    · exact .silent (.pure _)

theorem Binding.steady_of_exprs (hR : environment.IgnoresNotices Same) {path : Path}
    {callee : Callee} {k : Nat} {bs : List Binding} (hbs : ∀ b ∈ bs, ∀ path,
      Evaluate.Steady Same (b.expr.2.value s path) (b.expr.2.yields environment s path)) :
    Evaluate.Steady Same (Binding.values s path (environment.write callee) k bs)
      (Binding.yields environment s path callee k bs) := by
  induction bs generalizing k with
  | nil => exact .silent (.pure _)
  | cons b bs ih =>
    cases b with
    | mk d i e =>
      rw [List.forall_mem_cons] at hbs
      refine (hbs.1 _).bind fun x => .cons ?_ _
      refine (Evaluate.Steady.silent (Environment.write_alike hR callee _)).bind fun _ => ?_
      exact (ih hbs.2).map _

/-- **An expression yields the same, whatever call sites remember.** -/
theorem Expr.steady (hR : environment.IgnoresNotices Same) (hs : s.symbols = environment.symbols)
    (path : Path) {d : Domain} (e : Expr d) :
    Evaluate.Steady Same (e.value s path) (e.yields environment s path) := by
  induction e using Expr.induction generalizing path with
  | @step d e ih =>
    cases e with
    | literal | stateTime | optionTime => exact .result_only (.pure _)
    | parameter | reachedTarget => exact .result_only (.lift _)
    | input t i bindings =>
      have hbindings : Evaluate.Steady Same
          (Binding.values s path (environment.write (.input d i)) 0 bindings)
          (Binding.yields environment s path (.input d i) 0 bindings) :=
        Binding.steady_of_exprs hR fun b hb => ih b.expr (List.mem_map_of_mem hb)
      refine .result ⟨?_, hbindings.yields⟩
      rw [Expr.value_input, hs]
      refine .lift_bind fun symbol hi => ?_
      refine .bind ?_ fun _ => .ask (hR.input d i symbol hi)
      have halike := hbindings.alike
      rw [Environment.write_of_parameters? (Environment.parameters?_input hi)] at halike
      refine halike.bind fun arguments => Evaluate.alike_notice hR (.input d i) ?_ path arguments
      intro w
      cases hn : symbol.parametersChanged <;> simp [Environment.notify, hi, hn]
    | output t i =>
      refine .result_only ?_
      rw [Expr.value, hs]
      exact .lift_bind fun symbol hi => .ask (hR.fetch d i symbol hi)
    | choice c y n =>
      refine .result ((ih ⟨_, c⟩ (by simp [Expr.operands]) _).bind fun b => ?_)
      cases b with
      | true => exact ih ⟨_, y⟩ (by simp [Expr.operands]) _
      | false => exact ih ⟨_, n⟩ (by simp [Expr.operands]) _
    | arithmetic _ l r | relation _ l r | sameElement l r =>
      exact .result ((ih ⟨_, l⟩ (by simp [Expr.operands]) _).bind fun _ =>
        (ih ⟨_, r⟩ (by simp [Expr.operands]) _).map _)
    | connective op es =>
      exact .result (Expr.connected_steady fun e he => ih _ (List.mem_map_of_mem he))
    | not e => exact .result ((ih ⟨_, e⟩ (by simp [Expr.operands]) _).map _)

theorem Binding.steady (hR : environment.IgnoresNotices Same)
    (hs : s.symbols = environment.symbols) (path : Path) (callee : Callee) (bs : List Binding) :
    Evaluate.Steady Same (Binding.values s path (environment.write callee) 0 bs)
      (Binding.yields environment s path callee 0 bs) :=
  Binding.steady_of_exprs hR fun _ _ path => Expr.steady hR hs path _

mutual

/-- A decision tree yields the same and selects the same state. -/
theorem Statement.steady (hR : environment.IgnoresNotices Same)
    (hs : s.symbols = environment.symbols) (path : Path) (t : Statement) :
    Evaluate.Steady Same (t.select s path) (t.yields environment s path) := by
  cases t with
  | goto => exact .silent (.pure _)
  | branch condition yes otherwise =>
    refine (Expr.steady hR hs _ condition).bind fun b => ?_
    cases b with
    | true => exact Statement.steady hR hs _ yes
    | false => exact Alternative.steady hR hs _ otherwise

theorem Alternative.steady (hR : environment.IgnoresNotices Same)
    (hs : s.symbols = environment.symbols) (path : Path) (t : Alternative) :
    Evaluate.Steady Same (t.select s path) (t.yields environment s path) := by
  cases t with
  | elseIf condition yes otherwise =>
    refine (Expr.steady hR hs _ condition).bind fun b => ?_
    cases b with
    | true => exact Statement.steady hR hs _ yes
    | false => exact Alternative.steady hR hs _ otherwise
  | last statement => exact Statement.steady hR hs path statement

end

/-- The arguments of an activation. -/
theorem Run.argumentsAt_alike (hR : environment.IgnoresNotices Same)
    (hs : s.symbols = environment.symbols) (site : Path) (bindings : List Binding) :
    Evaluate.Alike Same (Run.argumentsAt s site bindings) (Run.argumentsAt s site bindings) := by
  -- Options have no slots, so the arguments are written nowhere.
  refine (Binding.steady hR hs site (.option 0) bindings).alike.bind fun arguments => ?_
  exact fun _ _ hw => .some ⟨rfl, hw⟩

/-- An action yields the same. -/
theorem Action.yields_eq (hR : environment.IgnoresNotices Same)
    (hs : s.symbols = environment.symbols) (path : Path) (a : Action) {st st' : Store σ}
    (hw : Same st.world st'.world) :
    a.yields environment s path st = a.yields environment s path st' := by
  cases a with
  | activate o bindings => exact (Binding.steady hR hs path (.option o) bindings).yields _ _ hw
  | behave b bindings => exact (Binding.steady hR hs path (.behavior b) bindings).yields _ _ hw
  | assign k value =>
    have hvalue := Expr.steady hR hs path value
    exact congrArg₂ (· ++ ·) (hvalue.yields _ _ hw)
      (hvalue.alike.next_eq (fun _ _ _ _ => by rfl) hw)

end Expressions

end BehaviorEngine
