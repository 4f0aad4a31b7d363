import BehaviorEngine.Proofs.Cycle.Frames
import BehaviorEngine.Proofs.Engine.Readings
import BehaviorEngine.Proofs.Host.Slots

/-!
Evaluations only read. An evaluation of an expression asks the host for symbols and writes slots of
the input symbols that it refers to; options, basic behaviors and output symbols are after it what
they were before. Without input symbols it does nothing but ask for output symbols, and has the same
value when it is repeated, if the host gives the same answers.
-/

namespace BehaviorEngine

open Partial

variable {σ : Type}

/-- An expression stands in the body of an option, at any depth. -/
def Graph.Node.HasExpr (n : Graph.Node) (x : Σ d, Expr d) : Prop := ∃ y ∈ n.exprs, Expr.Within x y

/-! ### What an evaluation changes -/

/-- An event asks for the value of an output symbol. -/
def HostEvent.IsFetch (event : HostEvent σ) : Prop := ∃ d k, event = .fetched d k

/-- **What an evaluation does** with some call sites, from one state of a cycle to another: it asks
for output symbols, and what else it does it does at these call sites. -/
structure ReadsOnly (environment : Environment σ) (calls : List CallSite)
    (log : List (HostEvent σ)) (m m' : Machine σ) : Prop where
  /-- Options keep their states, all times, and their parameters. -/
  options : m'.options = m.options
  /-- No basic behavior runs, and no output symbol is marked as assigned. -/
  behaviors : m'.behaviors = m.behaviors
  assigned : m'.assigned = m.assigned
  /-- Call sites read input symbols. -/
  inputs : ∀ c ∈ calls, ∃ d i, c.callee = .input d i
  /-- Nothing happens to the host but what the log tells. -/
  happens : Happens environment m.store.world log m'.store.world
  asked : ∀ event ∈ log, event.IsFetch ∨
    ∃ c ∈ calls, event.site? = some c.path ∧ event.callee? = some c.callee
  /-- A cell that no function of the host writes changes only if it is a slot of one of the
  symbols. -/
  cells : ∀ (d : Domain) (cell : String), environment.KeepsCell d cell →
    (∀ c ∈ calls, ∀ i, environment.slot? c.callee d i ≠ some cell) →
    m'.store.world.read d cell = m.store.world.read d cell
  /-- What is settled by something other than a parameter of one of the symbols stays. -/
  settled : ∀ {α : Type} (p : Place) (v : World σ → α), environment.Settles p v →
    (∀ c ∈ calls, ∀ d i, p ≠ .parameter c.callee d i) → v m'.store.world = v m.store.world
  /-- A call site that is not evaluated remembers what it did. -/
  memory : ∀ site, (∀ callee arguments w, .used site callee arguments w ∉ log) →
    m'.store.memory.get? site = m.store.memory.get? site

section Frames

variable {environment : Environment σ} {calls : List CallSite} {log : List (HostEvent σ)}
  {m : Machine σ} {st' : Store σ}

/-- What is written is a parameter of a symbol that is read at a call site. -/
theorem exists_call_of_writes?
    (hasked : ∀ event ∈ log, event.IsFetch ∨
      ∃ c ∈ calls, event.site? = some c.path ∧ event.callee? = some c.callee)
    (hstores : ∀ event ∈ log, event.stores = false) {event : HostEvent σ} (he : event ∈ log)
    {p : Place} (hp : event.writes? = some p) :
    ∃ c ∈ calls, ∃ d i, p = .parameter c.callee d i := by
  cases event with
  | wrote site callee a =>
    rcases hasked _ he with ⟨_, _, hfetch⟩ | ⟨c, hc, -, hcallee⟩
    · cases hfetch
    · cases hp
      cases hcallee
      exact ⟨c, hc, _, _, rfl⟩
  | stored => cases hstores _ he
  | told | used | fetched => cases hp

theorem Logged.asked {st : Store σ} (h : Logged environment (· ∈ calls) st log st')
    (hstores : ∀ event ∈ log, event.stores = false) : ∀ event ∈ log, event.IsFetch ∨
      ∃ c ∈ calls, event.site? = some c.path ∧ event.callee? = some c.callee := by
  intro event he
  cases event with
  | fetched d k => exact .inl ⟨d, k, rfl⟩
  | stored => cases hstores _ he
  | wrote site callee | told site callee | used site callee =>
    obtain ⟨keys, hreach⟩ :=
      (h.visits site).reach_of_mem (HostEvent.mem_filter_isAt he rfl) rfl
    exact .inr ⟨_, hreach, rfl, rfl⟩

theorem Logged.readsOnly (h : Logged environment (· ∈ calls) m.store log st')
    (hstores : ∀ event ∈ log, event.stores = false)
    (hinputs : ∀ c ∈ calls, ∃ d i, c.callee = .input d i) :
    ReadsOnly environment calls log m { m with store := st' } := by
  have hasked := h.asked hstores
  exact {
    options := rfl
    behaviors := rfl
    assigned := rfl
    inputs := hinputs
    happens := h.happens
    asked := hasked
    cells d cell hkeeps hslots := by
      refine h.happens.read_eq_of_keepsCell hkeeps fun event he p hp hcell => ?_
      obtain ⟨c, hc, d', i, rfl⟩ := exists_call_of_writes? hasked hstores he hp
      obtain ⟨slot, hslot, heq⟩ := Option.map_eq_some_iff.1 hcell
      cases heq
      exact hslots c hc i hslot
    settled p v hv hp := by
      refine h.happens.kept hv fun event he hwrites => ?_
      obtain ⟨c, hc, d, i, hplace⟩ := exists_call_of_writes? hasked hstores he hwrites
      exact hp c hc d i hplace
    memory site hsite := by
      have hnone : lastUse site log = none := by
        cases huse : lastUse site log with
        | none => rfl
        | some use =>
          obtain ⟨callee, hused⟩ := exists_used_of_lastUse huse
          exact absurd hused (hsite callee use.1 use.2)
      rw [h.memory_eq, hnone]
      rfl }

/-- If no cell is shared, a bound cell changes only if it is a slot of one of the symbols. -/
theorem ReadsOnly.bound {m' : Machine σ} (h : ReadsOnly environment calls log m m')
    (hy : environment.Unshared) {p : Place} {d : Domain} {cell : String}
    (hp : environment.cell? p = some (d, cell))
    (hcalls : ∀ c ∈ calls, ∀ kind i, p ≠ .parameter c.callee kind i) :
    m'.store.world.read d cell = m.store.world.read d cell :=
  h.settled p _ (hy.settles hp) hcalls

end Frames

/-! ### Evaluations without input symbols -/

/-- A world comes about by asking for output symbols. -/
def Environment.Fetches (environment : Environment σ) (w w' : World σ) : Prop :=
  ∃ log, Happens environment w log w' ∧ ∀ event ∈ log, event.IsFetch

/-- **Answers are repeatable**: for output symbols there are the same answers however often the host
is asked for some of them. -/
def Environment.Repeatable (environment : Environment σ) (w : World σ) : Prop :=
  ∀ w', environment.Fetches w w' → ∀ (d : Domain) (k : Nat) (symbol : OutputSymbol σ d),
    (environment.symbols.outputs.get d).at? k = some symbol →
    (symbol.binding.read w').1 = (symbol.binding.read w).1

/-- **What an evaluation does that only asks for output symbols**: nothing is remembered. -/
structure OnlyFetches (environment : Environment σ) (st st' : Store σ) : Prop where
  memory : st'.memory = st.memory
  fetches : environment.Fetches st.world st'.world

section Fetches

variable {environment : Environment σ} {s : Surroundings σ} {w w' w'' : World σ}
  {st st₁ st' : Store σ}

theorem Environment.Fetches.refl (w : World σ) : environment.Fetches w w := ⟨[], .nil w, nofun⟩

theorem Environment.Fetches.trans (h : environment.Fetches w w')
    (h' : environment.Fetches w' w'') : environment.Fetches w w'' := by
  obtain ⟨xs, hxs, hfetches⟩ := h
  obtain ⟨ys, hys, hfetches'⟩ := h'
  exact ⟨xs ++ ys, hxs.append hys, fun event he =>
    (List.mem_append.1 he).elim (hfetches event) (hfetches' event)⟩

theorem OnlyFetches.trans (h : OnlyFetches environment st st₁)
    (h' : OnlyFetches environment st₁ st') : OnlyFetches environment st st' :=
  ⟨h'.memory.trans h.memory, h.fetches.trans h'.fetches⟩

/-- The parts of an expression without call sites have none either. -/
theorem Expr.calls_of_mem_parts {path : Path} {d : Domain} {e : Expr d} (he : e.calls path = [])
    (s : Surroundings σ) (st : Store σ) :
    ∀ part ∈ e.parts s path st, part.expression.calls part.site = [] := by
  have hsublist : ((e.parts s path st).flatMap Part.calls).Sublist (e.calls path) :=
    Expr.calls_parts
  rwa [he, List.sublist_nil, List.flatMap_eq_nil_iff] at hsublist

/-- **An expression without call sites only asks for output symbols.** -/
theorem Expr.onlyFetches (hs : s.symbols = environment.symbols) (path : Path) {d : Domain}
    (e : Expr d) (hcalls : e.calls path = []) {x : d.Value}
    (h : e.value s path st = some (x, st')) : OnlyFetches environment st st' := by
  induction e using Expr.induction generalizing path st st' with
  | @step d e ih =>
    cases e with
    | input => cases hcalls
    | output t k =>
      obtain ⟨symbol, st₀, hlift, h⟩ := bind_eq_some.1 h
      obtain ⟨hk, rfl⟩ := lift_eq_some.1 hlift
      obtain ⟨rfl, rfl⟩ := Prod.mk.inj (modifyGet_eq_some.1 h)
      exact ⟨rfl, [.fetched d k], .single (.fetched (hs ▸ hk) _),
        List.forall_mem_singleton.2 ⟨d, k, rfl⟩⟩
    | _ =>
      exact ((Expr.leads rfl h).invariant (I := OnlyFetches environment st) ⟨rfl, .refl _⟩
        fun part hp _ _ hvalue hpart => hpart.trans (ih _ (Expr.mem_operands_of_mem_parts hp) _
          (Expr.calls_of_mem_parts hcalls s st part hp) hvalue)).2

/-- An expression without call sites has the value that it denotes in a world, if only output
symbols have been asked for since, and answers are repeatable. -/
theorem Expr.denote_eq_of_calls (hs : s.symbols = environment.symbols) (path : Path) {d : Domain}
    (e : Expr d) (hcalls : e.calls path = []) (hw : environment.Repeatable w)
    (hst : environment.Fetches w st.world) {x : d.Value} (h : e.value s path st = some (x, st')) :
    e.denote s w = some x := by
  induction e using Expr.induction generalizing path st st' with
  | @step d e ih =>
    cases e with
    | input => cases hcalls
    | output t k =>
      obtain ⟨symbol, st₀, hlift, h⟩ := bind_eq_some.1 h
      obtain ⟨hk, rfl⟩ := lift_eq_some.1 hlift
      obtain ⟨rfl, rfl⟩ := Prod.mk.inj (modifyGet_eq_some.1 h)
      simp [Expr.denote, hk, hw _ hst d k symbol (hs ▸ hk)]
    | _ =>
      have hnone := Expr.calls_of_mem_parts hcalls s st
      have hfetches := ((Expr.leads rfl h).invariant (I := fun st => environment.Fetches w st.world)
        hst fun part hp _ _ hvalue hpart => hpart.trans
          (Expr.onlyFetches hs _ _ (hnone part hp) hvalue).fetches).1
      exact Expr.denote_of_parts rfl h fun part hp {_ _} hvalue =>
        ih _ (Expr.mem_operands_of_mem_parts hp) _ (hnone part hp) (hfetches part hp) hvalue

/-- Cells are read without a change. -/
theorem Environment.Fetches.eq_of_cells (h : environment.Fetches w w')
    (hcells : ∀ (d : Domain) (k : Nat) (symbol : OutputSymbol σ d),
      (environment.symbols.outputs.get d).at? k = some symbol →
        ∃ cell, symbol.binding = .cell cell) : w' = w := by
  obtain ⟨log, hlog, hfetches⟩ := h
  induction hlog with
  | nil => rfl
  | cons htakes _ ih =>
    rw [List.forall_mem_cons] at hfetches
    obtain ⟨⟨d, k, rfl⟩, hrest⟩ := hfetches
    rw [ih hrest]
    cases htakes with
    | @fetched _ _ symbol hk =>
      obtain ⟨cell, hcell⟩ := hcells d k symbol hk
      rw [hcell]
      rfl

/-- Answers of cells are repeatable. -/
theorem Environment.repeatable_of_cells (hcells : ∀ (d : Domain) (k : Nat)
    (symbol : OutputSymbol σ d), (environment.symbols.outputs.get d).at? k = some symbol →
      ∃ cell, symbol.binding = .cell cell) (w : World σ) : environment.Repeatable w :=
  fun _ hw _ _ _ _ => by rw [hw.eq_of_cells hcells]

end Fetches

/-! ### Expressions of a graph -/

/-- **Evaluations only read.** In a graph that has been built, an expression has a value in all
surroundings that its option can have. Its evaluation leaves options, basic behaviors and output
symbols alone, and so it does the cells that they are bound to, if none is shared: it changes slots
of input symbols to which the expression refers, and what is remembered by the call sites that are
evaluated. An expression without input symbols changes nothing; the host is asked for output
symbols, and the value is the same again, if answers are repeatable. -/
theorem evaluation_only_reads (limits : Limits) (environment : Environment σ) (source : String)
    (g : Graph) (hg : Graph.ofSource limits environment source = .ok g) (n : Graph.Node)
    (hn : n ∈ g.options.values) (x : Σ d, Expr d) (hx : n.HasExpr x) (s : Surroundings σ)
    (hs : s.symbols = environment.symbols) (hfits : s.Fits n.parameters.sizes) (path : Path)
    (m : Machine σ) :
    ∃ v m', Run.evaluate (x.2.value s path) m = some (v, m') ∧
      ReadsOnly environment (x.2.calls path) (x.2.log environment s path m.store) m m' ∧
      (environment.Unshared → ∀ (p : Place) (d : Domain) (cell : String),
        environment.cell? p = some (d, cell) →
        (∀ c ∈ x.2.calls path, ∀ kind i, p ≠ .parameter c.callee kind i) →
        m'.store.world.read d cell = m.store.world.read d cell) ∧
      (x.2.calls path = [] → m'.store.memory = m.store.memory ∧
        environment.Fetches m.store.world m'.store.world ∧
        (environment.Repeatable m.store.world →
          ∃ m'', Run.evaluate (x.2.value s path) m' = some (v, m''))) := by
  obtain ⟨y, hy, hwithin⟩ := hx
  have hfit := hwithin.fits (((Graph.fits_of_ofSource hg).options n hn).exprs hy)
  obtain ⟨v, st', hvalue⟩ := Expr.value_succeeds hfits path x.2 (hs ▸ hfit) m.store
  have hreads := (Expr.logged hs path x.2 hfit hvalue).readsOnly
    (Expr.stores_of_mem_log path x.2 m.store) fun c hc => Expr.callee_of_mem_calls x.2 hc
  refine ⟨v, _, Run.evaluate_eq_some.2 ⟨st', hvalue, rfl⟩, hreads,
    fun hunshared p d cell hp => hreads.bound hunshared hp, fun hcalls => ?_⟩
  have hfetches := Expr.onlyFetches hs path x.2 hcalls hvalue
  refine ⟨hfetches.memory, hfetches.fetches, fun hrepeatable => ?_⟩
  obtain ⟨v', st'', hagain⟩ := Expr.value_succeeds hfits path x.2 (hs ▸ hfit) st'
  have hdenoted := Expr.denote_eq_of_calls hs path x.2 hcalls hrepeatable (.refl _) hvalue
  have hdenoted' := Expr.denote_eq_of_calls hs path x.2 hcalls hrepeatable hfetches.fetches hagain
  obtain rfl := Option.some_inj.1 (hdenoted.symm.trans hdenoted')
  exact ⟨_, Run.evaluate_eq_some.2 ⟨st'', hagain, rfl⟩⟩

/-! ### A conjunction and an output symbol -/

/-- The source of an option that assigns a conjunction, and then the negation of the output. -/
def toggleSource : String :=
  "1 o 0 o 1 s s s 0 2 b out i both 2 b a v true b b v true b out ! o out t s 0"

namespace Engine

theorem slot?_input_conjunction {d p : Domain} {k i : Nat} {slot : String}
    (h : conjunction.slot? (.input d k) p i = some slot) :
    (⟨d, k, p, i⟩ : Formal) = ⟨.boolean, 0, .boolean, 0⟩ ∧ slot = "left" ∨
      (⟨d, k, p, i⟩ : Formal) = ⟨.boolean, 0, .boolean, 1⟩ ∧ slot = "right" :=
  slot?_conjunction ((Environment.slot?_input d k p i).symm.trans h)

theorem cell?_conjunction {p : Place} {cell : Domain × String}
    (h : conjunction.cell? p = some cell) :
    (p, cell) ∈ [(.output .boolean 0, .boolean, "out"),
      (.parameter (.input .boolean 0) .boolean 0, .boolean, "left"),
      (.parameter (.input .boolean 0) .boolean 1, .boolean, "right")] := by
  match p, h with
  | .output .boolean 0, rfl => simp
  | .input d k, h =>
    obtain ⟨symbol, hs, h⟩ := Option.bind_eq_some_iff.1 h
    obtain ⟨rfl, rfl⟩ := at?_conjunction hs
    cases hs
    cases h
  | .parameter (.input d k) kind i, h =>
    obtain ⟨slot, hslot, rfl⟩ := Option.map_eq_some_iff.1 h
    rcases slot?_input_conjunction hslot with ⟨heq, rfl⟩ | ⟨heq, rfl⟩ <;> cases heq <;> simp

theorem cells_offers_conjunction {f : World Unit → World Unit} (h : conjunction.Offers f)
    (w : World Unit) : f w = w := by
  cases h with
  | getter hs hb =>
    obtain ⟨rfl, rfl⟩ := at?_conjunction hs
    cases hs
    cases hb
    rfl
  | inputNotice hs hn =>
    obtain ⟨rfl, rfl⟩ := at?_conjunction hs
    cases hs
    cases hn
  | fetch hs hb | store hs hb =>
    obtain ⟨rfl, rfl⟩ := output_at?_conjunction hs
    cases hs
    cases hb
  | run hb | behaviorNotice hb => cases hb

theorem unshared_conjunction : conjunction.Unshared where
  distinct := by
    intro p q cell hp hq
    have hp := cell?_conjunction hp
    have hq := cell?_conjunction hq
    simp only [List.mem_cons, Prod.mk.injEq, List.not_mem_nil, or_false] at hp hq
    rcases hp with ⟨rfl, rfl⟩ | ⟨rfl, rfl⟩ | ⟨rfl, rfl⟩ <;> simp_all
  spared := fun f hf _ _ _ _ w => by rw [cells_offers_conjunction hf w]

/-- Nothing has run. -/
def idleMachine : Machine Unit where
  store := ⟨⟨Cells.empty, ()⟩, Memory.empty⟩
  options := []
  behaviors := []
  assigned := PerDomain.ofFn fun _ => []

theorem evaluation_only_reads_toggle : ∃ g n x y,
    Graph.ofSource Limits.standard conjunction toggleSource = .ok g ∧ n ∈ g.options.values ∧
    n.exprs = [x, y] ∧ y.2.calls [] = [] ∧
    (∃ v m', Run.evaluate (x.2.value surroundings []) idleMachine = some (v, m') ∧
      ReadsOnly conjunction (x.2.calls [])
        (x.2.log conjunction surroundings [] idleMachine.store) idleMachine m' ∧
      m'.store.world.read .boolean "out" = false) ∧
    ∃ v m' m'', Run.evaluate (y.2.value surroundings []) idleMachine = some (v, m') ∧
      m'.store.memory = Memory.empty ∧
      Run.evaluate (y.2.value surroundings []) m' = some (v, m'') := by
  have hg : (Graph.ofSource Limits.standard conjunction toggleSource).toOption.map (fun g =>
      g.options.values.map fun n => (n.exprs.map fun x => (x.2.calls []).length,
        n.parameters.size)) = some [([1, 0], 0)] := by
    decide +kernel
  cases h : Graph.ofSource Limits.standard conjunction toggleSource with
  | error => simp [h, Except.toOption] at hg
  | ok g =>
    simp only [h, Except.toOption, Option.map_some, Option.some_inj] at hg
    obtain ⟨n, hn, hsizes⟩ := List.map_eq_singleton_iff.1 hg
    obtain ⟨hcalls, hsize⟩ := Prod.mk.inj hsizes
    obtain ⟨x, rest, hexprs, -, hrest⟩ := List.map_eq_cons_iff.1 hcalls
    obtain ⟨y, rfl, hy⟩ := List.map_eq_singleton_iff.1 hrest
    have hfits := fits_surroundings hsize
    have hmem : n ∈ g.options.values := hn ▸ List.mem_singleton_self n
    have hycalls := List.eq_nil_of_length_eq_zero hy
    obtain ⟨v, m', hvalue, hreads, hbound, -⟩ := evaluation_only_reads _ _ _ g h n hmem x
      ⟨x, by simp [hexprs], .refl⟩ surroundings rfl hfits [] idleMachine
    obtain ⟨v₁, m₁, hvalue₁, -, -, hnone⟩ := evaluation_only_reads _ _ _ g h n hmem y
      ⟨y, by simp [hexprs], .refl⟩ surroundings rfl hfits [] idleMachine
    obtain ⟨hmemory, -, hagain⟩ := hnone hycalls
    obtain ⟨m₂, hvalue₂⟩ := hagain (Environment.repeatable_of_cells (fun d k symbol hk => by
      obtain ⟨rfl, rfl⟩ := output_at?_conjunction hk
      cases hk
      exact ⟨_, rfl⟩) _)
    refine ⟨g, n, x, y, rfl, hmem, hexprs, hycalls, ⟨v, m', hvalue, hreads, ?_⟩,
      v₁, m₁, m₂, hvalue₁, hmemory, hvalue₂⟩
    exact hbound unshared_conjunction (.output .boolean 0) .boolean "out" rfl
      fun _ _ _ _ => Place.noConfusion

end Engine

end BehaviorEngine
