import BehaviorEngine.Proofs.Host.Cells
import BehaviorEngine.Proofs.Host.Log

/-!
What cells of the host are bound to. If no cell is bound twice, and no function of the host writes a
cell that is bound, then the engine alone decides what happens to such a cell: it changes only by an
argument for the parameter, or by a value for the output symbol, that the cell is bound to.
-/

namespace BehaviorEngine

variable {σ : Type}

/-! ### Bindings -/

/-- What a cell can be bound to: a symbol, or a formal parameter of a symbol or a behavior. -/
inductive Place where
  | input (d : Domain) (symbol : Nat)
  | output (d : Domain) (symbol : Nat)
  | parameter (callee : Callee) (d : Domain) (index : Nat)
  deriving DecidableEq

/-- The cell of an input binding. -/
def InputBinding.cell? {d : Domain} : InputBinding σ d → Option String
  | cell name => some name
  | getter _ => none

/-- The cell of an output binding. -/
def OutputBinding.cell? {d : Domain} : OutputBinding σ d → Option String
  | cell name => some name
  | accessors _ _ => none

namespace Environment

variable (environment : Environment σ)

/-- The cell that is bound to a symbol or a parameter. -/
def cell? : Place → Option (Domain × String)
  | .input d k => do
    let symbol ← (environment.symbols.inputs.get d).at? k
    return (d, ← symbol.binding.cell?)
  | .output d k => do
    let symbol ← (environment.symbols.outputs.get d).at? k
    return (d, ← symbol.binding.cell?)
  | .parameter callee d i => (environment.slot? callee d i).map fun slot => (d, slot)

/-- **The functions of the host**: getters and other accessors of symbols, notices of changed
parameters, and behaviors. -/
inductive Offers : (World σ → World σ) → Prop
  | getter {d : Domain} {k : Nat} {symbol : InputSymbol σ d} {call : World σ → d.Value × World σ}
      (hs : (environment.symbols.inputs.get d).at? k = some symbol)
      (hb : symbol.binding = .getter call) : Offers fun w => (call w).2
  | inputNotice {d : Domain} {k : Nat} {symbol : InputSymbol σ d} {notice : World σ → World σ}
      (hs : (environment.symbols.inputs.get d).at? k = some symbol)
      (hn : symbol.parametersChanged = some notice) : Offers notice
  | fetch {d : Domain} {k : Nat} {symbol : OutputSymbol σ d} {store : d.Value → World σ → World σ}
      {fetch : World σ → d.Value × World σ}
      (hs : (environment.symbols.outputs.get d).at? k = some symbol)
      (hb : symbol.binding = .accessors store fetch) : Offers fun w => (fetch w).2
  | store {d : Domain} {k : Nat} {symbol : OutputSymbol σ d} {store : d.Value → World σ → World σ}
      {fetch : World σ → d.Value × World σ}
      (hs : (environment.symbols.outputs.get d).at? k = some symbol)
      (hb : symbol.binding = .accessors store fetch) (x : d.Value) : Offers (store x)
  | run {b : Nat} {behavior : BasicBehavior σ} (hb : environment.behaviors.at? b = some behavior) :
      Offers behavior.run
  | behaviorNotice {b : Nat} {behavior : BasicBehavior σ}
      (hb : environment.behaviors.at? b = some behavior) : Offers behavior.parametersChanged

/-- **Bound cells belong to the engine**: none is shared, and no function of the host writes one. -/
structure Unshared : Prop where
  distinct : ∀ (p q : Place) (cell : Domain × String),
    environment.cell? p = some cell → environment.cell? q = some cell → p = q
  spared : ∀ (f : World σ → World σ), environment.Offers f → ∀ (p : Place) (d : Domain)
    (cell : String), environment.cell? p = some (d, cell) → ∀ w, (f w).read d cell = w.read d cell

variable {environment}

/-- To give notice is to call a function of the host, or nothing. -/
theorem notify_cases (callee : Callee) :
    (∀ w, environment.notify callee w = w) ∨
      ∃ f, environment.Offers f ∧ ∀ w, environment.notify callee w = f w := by
  cases callee with
  | option => exact .inl fun _ => rfl
  | behavior b =>
    cases hb : environment.behaviors.at? b with
    | none => exact .inl fun w => by simp [notify, hb]
    | some behavior => exact .inr ⟨_, .behaviorNotice hb, fun w => by simp [notify, hb]⟩
  | input d k =>
    cases hs : (environment.symbols.inputs.get d).at? k with
    | none => exact .inl fun w => by simp [notify, hs]
    | some symbol =>
      cases hn : symbol.parametersChanged with
      | none => exact .inl fun w => by simp [notify, hs, hn]
      | some f => exact .inr ⟨f, .inputNotice hs hn, fun w => by simp [notify, hs, hn]⟩

/-- To use a target is to call a function of the host, or nothing. -/
theorem use_cases (callee : Callee) :
    (∀ w, environment.use callee w = w) ∨
      ∃ f, environment.Offers f ∧ ∀ w, environment.use callee w = f w := by
  cases callee with
  | option => exact .inl fun _ => rfl
  | behavior b =>
    cases hb : environment.behaviors.at? b with
    | none => exact .inl fun w => by simp [use, hb]
    | some behavior => exact .inr ⟨_, .run hb, fun w => by simp [use, hb]⟩
  | input d k =>
    cases hs : (environment.symbols.inputs.get d).at? k with
    | none => exact .inl fun w => by simp [use, hs]
    | some symbol =>
      cases hb : symbol.binding with
      | cell name => exact .inl fun w => by simp [use, hs, hb, InputBinding.read]
      | getter call =>
        exact .inr ⟨_, .getter hs hb, fun w => by simp [use, hs, hb, InputBinding.read]⟩

end Environment

/-! ### Writes -/

/-- What an event gives a value to. -/
def HostEvent.writes? : HostEvent σ → Option Place
  | wrote _ callee a => some (.parameter callee a.domain a.index)
  | stored d k _ => some (.output d k)
  | told .. | used .. | fetched .. => none

/-- **Something is settled by what a symbol or a parameter is given**: no other event changes it. -/
def Environment.Settles {α : Type} (environment : Environment σ) (p : Place) (v : World σ → α) :
    Prop :=
  ∀ (event : HostEvent σ) (w w' : World σ), event.Takes environment w w' →
    event.writes? ≠ some p → v w' = v w

/-- What is settled by a place stays if the place is not given a value. -/
theorem Happens.kept {α : Type} {environment : Environment σ} {p : Place} {v : World σ → α}
    (hv : environment.Settles p v) {w w' : World σ} {log : List (HostEvent σ)}
    (h : Happens environment w log w') (hn : ∀ event ∈ log, event.writes? ≠ some p) :
    v w' = v w := by
  induction h with
  | nil => rfl
  | cons h _ ih =>
    have hhead := hv _ _ _ h (hn _ List.mem_cons_self)
    exact (ih fun event he => hn event (List.mem_cons_of_mem _ he)).trans hhead

/-- No function of the host writes a cell. -/
def Environment.KeepsCell (environment : Environment σ) (d : Domain) (cell : String) : Prop :=
  ∀ f, environment.Offers f → ∀ w, (f w).read d cell = w.read d cell

/-- A cell that no function of the host writes changes only by a value for something that it is
bound to. -/
theorem HostEvent.Takes.read_eq {environment : Environment σ} {d : Domain} {cell : String}
    (hkeeps : environment.KeepsCell d cell) {event : HostEvent σ} {w w' : World σ}
    (h : event.Takes environment w w')
    (hn : ∀ p ∈ event.writes?, environment.cell? p ≠ some (d, cell)) :
    w'.read d cell = w.read d cell := by
  have hfunction : ∀ g : World σ → World σ, ((∀ w, g w = w) ∨ ∃ f, environment.Offers f ∧
      ∀ w, g w = f w) → (g w).read d cell = w.read d cell := by
    rintro g (hg | ⟨f, hf, hg⟩)
    · rw [hg]
    · rw [hg]
      exact hkeeps f hf w
  cases h with
  | @wrote site callee a slot hslot w =>
    refine World.read_write_of_ne _ _ _ _ fun heq => hn _ rfl ?_
    rw [heq]
    simp [Environment.cell?, hslot]
  | @told _ callee => exact hfunction _ (Environment.notify_cases callee)
  | @used _ callee => exact hfunction _ (Environment.use_cases callee)
  | @fetched e k symbol hk w =>
    cases hb : symbol.binding with
    | cell name => rfl
    | accessors store fetch => exact hkeeps _ (.fetch hk hb) w
  | @stored e k symbol x hk w =>
    cases hb : symbol.binding with
    | cell name =>
      refine World.read_write_of_ne _ _ _ _ fun heq => hn _ rfl ?_
      rw [heq]
      simp [Environment.cell?, hk, hb, OutputBinding.cell?]
    | accessors store fetch => exact hkeeps _ (.store hk hb x) w

theorem Happens.read_eq_of_keepsCell {environment : Environment σ} {d : Domain} {cell : String}
    (hkeeps : environment.KeepsCell d cell) {w w' : World σ} {log : List (HostEvent σ)}
    (h : Happens environment w log w')
    (hn : ∀ event ∈ log, ∀ p ∈ event.writes?, environment.cell? p ≠ some (d, cell)) :
    w'.read d cell = w.read d cell := by
  induction h with
  | nil => rfl
  | cons h _ ih =>
    exact (ih fun event he => hn event (List.mem_cons_of_mem _ he)).trans
      (h.read_eq hkeeps (hn _ List.mem_cons_self))

/-- **A bound cell is settled by what it is bound to**, if no cell is shared. -/
theorem Environment.Unshared.settles {environment : Environment σ} (hy : environment.Unshared)
    {p : Place} {d : Domain} {cell : String} (hp : environment.cell? p = some (d, cell)) :
    environment.Settles p fun w => w.read d cell := by
  intro event w w' h hne
  refine h.read_eq (fun f hf => hy.spared f hf p d cell hp) fun q hq hcell => hne ?_
  rw [hy.distinct p q _ hp hcell]
  exact hq

end BehaviorEngine
