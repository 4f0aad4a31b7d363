import BehaviorEngine.Proofs.Cycle.Yields
import BehaviorEngine.Proofs.Cycle.Parameters
import BehaviorEngine.Proofs.Graph.Typing

/-!
Typing at work. In a typed graph enumerated values stay within their enumerations, as long as input
symbols and the functions behind output symbols supply only values that do: what expressions
evaluate to, what is assigned to output symbols, and what is bound to parameters. Output symbols
that are variables are read back, so it matters that no one else writes these variables; parameters
of options are bound anew whenever the option is activated.
-/

namespace BehaviorEngine

open Partial

variable {σ : Type}

/-! ### Values that stay within their enumerations -/

/-- All parameters have values that agree with their typings. -/
def Symbols.AdmitsAll (y : Symbols σ) (types : (d : Domain) → Nat → Option d.Typing)
    (values : PerDomain fun d => List d.Value) : Prop :=
  ∀ (d : Domain) (i : Nat) (t : d.Typing) (x : d.Value), types d i = some t →
    (values.get d)[i]? = some x → y.Admits t x

/-- Each output symbol that is an enumerated variable has the variable to itself. -/
def Environment.OwnsVariables (environment : Environment σ) : Prop :=
  ∀ (k : Nat) (symbol : OutputSymbol σ .enumerated) (cell : String),
    (environment.symbols.outputs.get .enumerated).at? k = some symbol →
    symbol.binding = .cell cell → environment.Owns .enumerated k cell

/-- The variables behind output symbols hold values that agree with the typings of the symbols. -/
def Environment.HoldsElements (environment : Environment σ) (w : World σ) : Prop :=
  ∀ (d : Domain) (k : Nat) (symbol : OutputSymbol σ d) (cell : String),
    (environment.symbols.outputs.get d).at? k = some symbol → symbol.binding = .cell cell →
    environment.symbols.Admits symbol.typing (w.read d cell)

/-- Values of the other domains agree with every typing. -/
theorem Symbols.admits_of_ne {y : Symbols σ} {d : Domain} (h : d ≠ .enumerated) (t : d.Typing)
    (x : d.Value) : y.Admits t x := by
  cases d with
  | decimal | boolean => trivial
  | enumerated => exact absurd rfl h

/-- What leaves the enumerated variables of output symbols alone leaves elements in them. -/
theorem Environment.HoldsElements.of_spares {environment : Environment σ} {w w' : World σ}
    (h : environment.HoldsElements w)
    (hs : ∀ (k : Nat) (symbol : OutputSymbol σ .enumerated) (cell : String),
      (environment.symbols.outputs.get .enumerated).at? k = some symbol →
      symbol.binding = .cell cell → w'.read .enumerated cell = w.read .enumerated cell) :
    environment.HoldsElements w' := by
  intro d k symbol cell hk hcell
  by_cases hd : d = .enumerated
  · subst hd
    rw [hs k symbol cell hk hcell]
    exact h _ k symbol cell hk hcell
  · exact Symbols.admits_of_ne hd _ _

/-- The typing of a parameter of the target of a call site. -/
def Program.formal? (p : Program σ) : Callee → (d : Domain) → Nat → Option d.Typing
  | .input e k, d, i =>
    ((p.environment.symbols.inputs.get e).at? k).bind fun symbol => symbol.parameters.typing? d i
  | .behavior b, d, i =>
    (p.environment.behaviors.at? b).bind fun behavior => behavior.parameters.typing? d i
  | .option o, d, i => (p.graph.options.at? o).bind fun node => node.parameters.typing? d i

namespace Yield

/-- What the host supplies, the value of an input symbol or what a function behind an output symbol
returns, agrees with the typing of the symbol. -/
def SuppliesElement (environment : Environment σ) : Yield → Prop
  | @value d (.input _ k _) x => ∀ symbol, (environment.symbols.inputs.get d).at? k = some symbol →
    environment.symbols.Admits symbol.typing x
  | @value d (.output _ k) x => ∀ symbol, (environment.symbols.outputs.get d).at? k = some symbol →
    (∀ cell, symbol.binding ≠ .cell cell) → environment.symbols.Admits symbol.typing x
  | _ => True

/-- The value of an expression agrees with its typing, an argument with that of its parameter, and
an assigned value with that of the output symbol. -/
def StaysWithin (p : Program σ) : Yield → Prop
  | value expression x => p.environment.symbols.Admits expression.typing x
  | argument callee a => ∃ t, p.formal? callee a.domain a.index = some t ∧
    p.environment.symbols.Admits t a.value
  | @assigned d k x => ∃ symbol, (p.environment.symbols.outputs.get d).at? k = some symbol ∧
    p.environment.symbols.Admits symbol.typing x

end Yield

/-! ### Evaluations -/

/-- Passing an argument on leaves the variable of an output symbol alone. -/
theorem Environment.Owns.write_spares {environment : Environment σ} {d : Domain} {k : Nat}
    {cell : String} (hy : environment.Owns d k cell) {callee : Callee} {a : Argument}
    {st st' : Store σ} (h : environment.write callee a st = some ((), st')) :
    st'.world.read d cell = st.world.read d cell := by
  cases hp : environment.parameters? callee with
  | none =>
    rw [Environment.write, hp] at h
    obtain ⟨-, rfl⟩ := pure_eq_some.1 h
    rfl
  | some parameters =>
    rw [Environment.write_of_parameters? hp] at h
    refine Evaluate.writeSlot_spares ?_ h
    cases callee with
    | input e j =>
      obtain ⟨symbol, hj, rfl⟩ := Option.map_eq_some_iff.1 hp
      exact hy.inputSlot _ _ _ hj
    | behavior j =>
      obtain ⟨behavior, hj, rfl⟩ := Option.map_eq_some_iff.1 hp
      exact hy.behaviorSlot _ _ hj
    | option => cases hp

section Evaluation

variable {p : Program σ} {s : Surroundings σ} {own : (d : Domain) → Nat → Option d.Typing}
  {room : Domain → Nat}

/-- The result of an expression stays within the enumeration if the value does. -/
theorem Expr.result_staysWithin {path : Path} {d : Domain} {e : Expr d} {st st' : Store σ}
    {x : d.Value} (h : e.value s path st = some (x, st'))
    (hx : p.environment.symbols.Admits e.typing x) :
    ∀ y ∈ e.result s path st, y.StaysWithin p := by
  rw [Expr.result_eq h]
  rintro _ ⟨⟩
  · exact hx
  · contradiction

/-- The value of an expression whose yields stay within their enumerations. -/
theorem Expr.admits_of_staysWithin {path : Path} {d : Domain} {e : Expr d} {st st' : Store σ}
    {x : d.Value} (h : e.value s path st = some (x, st'))
    (hy : ∀ y ∈ e.yields p.environment s path st, y.StaysWithin p) :
    p.environment.symbols.Admits e.typing x :=
  hy _ (Expr.value_mem_yields h)

/-- An evaluation leaves elements in the variables of output symbols. -/
theorem Expr.value_holdsElements (howns : p.environment.OwnsVariables)
    (hs : s.symbols = p.environment.symbols) {path : Path} {d : Domain} {e : Expr d}
    (hf : e.Fits p.environment.symbols room) {st st' : Store σ} {x : d.Value}
    (h : e.value s path st = some (x, st')) (hw : p.environment.HoldsElements st.world) :
    p.environment.HoldsElements st'.world :=
  hw.of_spares fun k symbol cell hk hcell =>
    Expr.value_spares (howns k symbol cell hk hcell) hs (hs ▸ hf) h

/-- **What one part after another yields stays within the enumerations**, if it does for each part
that begins with elements in the variables of output symbols. -/
theorem Leads.staysWithin (howns : p.environment.OwnsVariables)
    (hs : s.symbols = p.environment.symbols) {st st' : Store σ} {parts : List (Part σ)}
    (h : Leads s st parts st')
    (hf : ∀ part ∈ parts, part.expression.Fits p.environment.symbols room)
    (hparts : ∀ part ∈ parts, ∀ {x st₁}, part.value s = some (x, st₁) →
      p.environment.HoldsElements part.store.world →
      (∀ y ∈ part.yields p.environment s, y.SuppliesElement p.environment) →
      ∀ y ∈ part.yields p.environment s, y.StaysWithin p)
    (hw : p.environment.HoldsElements st.world)
    (hsupplies : ∀ y ∈ parts.flatMap (Part.yields p.environment s),
      y.SuppliesElement p.environment) :
    ∀ y ∈ parts.flatMap (Part.yields p.environment s), y.StaysWithin p := by
  have hholds := (h.invariant (I := fun st => p.environment.HoldsElements st.world) hw
    fun part hp _ _ hvalue => Expr.value_holdsElements howns hs (hf part hp) hvalue).1
  intro y hy
  obtain ⟨part, hp, hy⟩ := List.mem_flatMap.1 hy
  obtain ⟨x, st₁, hvalue⟩ := h.exists_value part hp
  exact hparts part hp hvalue (hholds part hp)
    (fun z hz => hsupplies z (List.mem_flatMap.2 ⟨part, hp, hz⟩)) y hy

/-- The value of a typed expression stays within its enumeration if what its parts yield does. -/
theorem Expr.admits_of_parts {path : Path} {d : Domain} {e : Expr d} (he : e.asksHost = false)
    (hown : p.environment.symbols.AdmitsAll own s.parameters)
    (ht : e.Typed p.environment.symbols own) {st st' : Store σ} {x : d.Value}
    (h : e.value s path st = some (x, st'))
    (hparts : ∀ y ∈ (e.parts s path st).flatMap (Part.yields p.environment s), y.StaysWithin p) :
    p.environment.symbols.Admits e.typing x := by
  cases e with
  | input | output => cases he
  | literal t v =>
    obtain ⟨rfl, -⟩ := pure_eq_some.1 h
    exact ht
  | parameter t i => exact hown _ _ _ _ ht (lift_eq_some.1 h).1
  | choice c y n =>
    obtain ⟨b, st₁, hc, hb⟩ := bind_eq_some.1 h
    rw [Expr.flatMap_parts_choice, Evaluate.next_eq hc, List.forall_mem_append] at hparts
    cases b with
    | true => exact hparts.2 _ (Expr.value_mem_yields hb)
    | false =>
      rw [Expr.typing, ← ht.2.2.2]
      exact hparts.2 _ (Expr.value_mem_yields hb)
  | _ => trivial

/-- The arguments of a call site stay within the enumerations of the parameters, if what the
expressions of its bindings yield does. -/
theorem Binding.staysWithin_of_exprs (howns : p.environment.OwnsVariables)
    (hs : s.symbols = p.environment.symbols) {path : Path} {callee : Callee}
    {formal : (d : Domain) → Nat → Option d.Typing} {target : Domain → Nat}
    (hformal : ∀ d i, p.formal? callee d i = formal d i) {k : Nat} {bs : List Binding}
    (ht : ∀ b ∈ bs, b.Typed p.environment.symbols own formal)
    (hf : ∀ b ∈ bs, b.Fits p.environment.symbols room target)
    (hbs : ∀ b ∈ bs, ∀ {path st st' x}, b.expr.2.value s path st = some (x, st') →
      p.environment.HoldsElements st.world →
      (∀ y ∈ b.expr.2.yields p.environment s path st, y.SuppliesElement p.environment) →
      ∀ y ∈ b.expr.2.yields p.environment s path st, y.StaysWithin p)
    {st st' : Store σ} {arguments : List Argument}
    (h : Binding.values s path (p.environment.write callee) k bs st = some (arguments, st'))
    (hw : p.environment.HoldsElements st.world)
    (hsupplies : ∀ y ∈ Binding.yields p.environment s path callee k bs st,
      y.SuppliesElement p.environment) :
    ∀ y ∈ Binding.yields p.environment s path callee k bs st, y.StaysWithin p := by
  induction bs generalizing k st arguments with
  | nil => exact nofun
  | cons b bs ih =>
    cases b with
    | mk d i e =>
      rw [List.forall_mem_cons] at ht hf hbs
      obtain ⟨x, st₁, st₂, as, he, hwrite, hvalues, -⟩ := Binding.values_cons_eq_some h
      have hw₁ := Expr.value_holdsElements howns hs hf.1.2 he hw
      have hw₂ := hw₁.of_spares fun _ _ _ hk hcell => (howns _ _ _ hk hcell).write_spares hwrite
      rw [Binding.yields, List.forall_mem_append, Evaluate.next_eq he, List.forall_mem_cons,
        Evaluate.next_eq hwrite] at hsupplies ⊢
      have hvalue := hbs.1 he hw hsupplies.1
      refine ⟨hvalue, ⟨e.typing, ?_, Expr.admits_of_staysWithin he hvalue⟩, ?_⟩
      · rw [hformal]
        exact ht.1.1
      · exact ih ht.2 hf.2 hbs.2 hvalues hw₂ hsupplies.2.2

/-- **In a typed expression all values stay within their enumerations.** -/
theorem Expr.staysWithin (howns : p.environment.OwnsVariables)
    (hs : s.symbols = p.environment.symbols)
    (hown : p.environment.symbols.AdmitsAll own s.parameters) (path : Path) {d : Domain}
    (e : Expr d) (ht : e.Typed p.environment.symbols own)
    (hf : e.Fits p.environment.symbols room) {st st' : Store σ} {x : d.Value}
    (h : e.value s path st = some (x, st')) (hw : p.environment.HoldsElements st.world)
    (hsupplies : ∀ y ∈ e.yields p.environment s path st, y.SuppliesElement p.environment) :
    ∀ y ∈ e.yields p.environment s path st, y.StaysWithin p := by
  induction e using Expr.induction generalizing path st st' with
  | step e ih =>
    have ih : ∀ z ∈ e.operands, ∀ {path st st' x}, z.2.value s path st = some (x, st') →
        p.environment.HoldsElements st.world →
        (∀ y ∈ z.2.yields p.environment s path st, y.SuppliesElement p.environment) →
        ∀ y ∈ z.2.yields p.environment s path st, y.StaysWithin p :=
      fun z hz => ih z hz _ (ht.operands hz) (hf.operands hz)
    cases e with
    | input t i bindings =>
      obtain ⟨symbol, hi, rfl, htyped⟩ := ht
      obtain ⟨symbol', hi', -, hfits⟩ := hf
      obtain rfl := Option.some_inj.1 (hi.symm.trans hi')
      rw [Expr.yields, List.forall_mem_append] at hsupplies ⊢
      refine ⟨?_, Expr.result_staysWithin h ?_⟩
      · obtain ⟨arguments, st₁, -, hvalues, -⟩ := Expr.value_input_eq_some (hs ▸ hi) h
        rw [← Environment.write_of_parameters? (Environment.parameters?_input hi)] at hvalues
        exact Binding.staysWithin_of_exprs howns hs (fun _ _ => by rw [Program.formal?, hi]; rfl)
          (Binding.allTyped_iff.1 htyped) (Binding.allFit_iff.1 hfits)
          (fun b hb => ih _ (List.mem_map_of_mem hb)) hvalues hw hsupplies.1
      · rw [Expr.result_eq h] at hsupplies
        exact hsupplies.2 _ (List.mem_singleton_self _) symbol hi
    | output t k =>
      obtain ⟨symbol, hk, rfl⟩ := ht
      refine Expr.result_staysWithin h ?_
      rw [Expr.yields, Expr.result_eq h] at hsupplies
      have hsupplied := hsupplies _ (List.mem_singleton_self _) symbol hk
      obtain ⟨symbol', st₀, hlift, hask⟩ := bind_eq_some.1 h
      obtain ⟨hk', rfl⟩ := lift_eq_some.1 hlift
      obtain rfl := Option.some_inj.1 (hk.symm.trans (hs ▸ hk'))
      obtain ⟨rfl, -⟩ := Prod.mk.inj (modifyGet_eq_some.1 hask)
      cases hb : symbol.binding with
      | cell cell => exact hw _ k symbol cell hk hb
      | accessors store fetch =>
        refine hb ▸ hsupplied fun cell hcell => ?_
        rw [hb] at hcell
        cases hcell
    | _ =>
      rw [Expr.yields_eq rfl, List.forall_mem_append] at hsupplies ⊢
      have hstays := (Expr.leads rfl h).staysWithin howns hs
        (fun part hp => hf.operands (Expr.mem_operands_of_mem_parts hp))
        (fun part hp => ih _ (Expr.mem_operands_of_mem_parts hp)) hw hsupplies.1
      exact ⟨hstays, Expr.result_staysWithin h (Expr.admits_of_parts rfl hown ht h hstays)⟩

/-- The arguments of a call site stay within the enumerations of the parameters. -/
theorem Binding.staysWithin (howns : p.environment.OwnsVariables)
    (hs : s.symbols = p.environment.symbols)
    (hown : p.environment.symbols.AdmitsAll own s.parameters) {path : Path} {callee : Callee}
    {formal : (d : Domain) → Nat → Option d.Typing} {target : Domain → Nat}
    (hformal : ∀ d i, p.formal? callee d i = formal d i) {k : Nat} {bs : List Binding}
    (ht : ∀ b ∈ bs, b.Typed p.environment.symbols own formal)
    (hf : ∀ b ∈ bs, b.Fits p.environment.symbols room target) {st st' : Store σ}
    {arguments : List Argument}
    (h : Binding.values s path (p.environment.write callee) k bs st = some (arguments, st'))
    (hw : p.environment.HoldsElements st.world)
    (hsupplies : ∀ y ∈ Binding.yields p.environment s path callee k bs st,
      y.SuppliesElement p.environment) :
    ∀ y ∈ Binding.yields p.environment s path callee k bs st, y.StaysWithin p :=
  Binding.staysWithin_of_exprs howns hs hformal ht hf
    (fun b hb => Expr.staysWithin howns hs hown _ _ (ht b hb).expr (hf b hb).expr) h hw hsupplies

/-- Passing arguments leaves elements in the variables of output symbols. -/
theorem Binding.values_holdsElements (howns : p.environment.OwnsVariables)
    (hs : s.symbols = p.environment.symbols) {path : Path} {callee : Callee}
    {target : Domain → Nat} {k : Nat} {bs : List Binding}
    (hf : ∀ b ∈ bs, b.Fits p.environment.symbols room target) {st st' : Store σ}
    {arguments : List Argument}
    (h : Binding.values s path (p.environment.write callee) k bs st = some (arguments, st'))
    (hw : p.environment.HoldsElements st.world) : p.environment.HoldsElements st'.world :=
  hw.of_spares fun k symbol cell hk hcell =>
    Binding.values_spares (howns k symbol cell hk hcell) hs
      (fun _ _ _ => (howns k symbol cell hk hcell).write_spares) (hs ▸ hf) h

/-- The conditions of a typed decision tree stay within their enumerations. -/
theorem Statement.staysWithin (howns : p.environment.OwnsVariables)
    (hs : s.symbols = p.environment.symbols)
    (hown : p.environment.symbols.AdmitsAll own s.parameters) {states : Nat} {path : Path}
    {t : Statement} (ht : t.Typed p.environment.symbols own)
    (hf : t.Fits p.environment.symbols room states) {st st' : Store σ} {i : Nat}
    (h : t.select s path st = some (i, st')) (hw : p.environment.HoldsElements st.world)
    (hsupplies : ∀ y ∈ t.yields p.environment s path st, y.SuppliesElement p.environment) :
    ∀ y ∈ t.yields p.environment s path st, y.StaysWithin p := by
  rw [Statement.yields_eq] at hsupplies ⊢
  refine (Statement.leads h).staysWithin howns hs
    (fun part hp => hf.exprs (Statement.mem_exprs_of_mem_parts hp))
    (fun part hp _ _ hvalue => ?_) hw hsupplies
  have hmem := Statement.mem_exprs_of_mem_parts hp
  exact Expr.staysWithin howns hs hown _ _ (ht.exprs hmem) (hf.exprs hmem) hvalue

end Evaluation

/-! ### Cycles -/

/-- Output symbols that are variables hold elements, and so do the parameters of the options that
have run in a cycle. -/
structure Machine.HoldsElements (p : Program σ) (c : Cycle) (m : Machine σ) : Prop where
  world : p.environment.HoldsElements m.store.world
  parameters : ∀ (i : Nat) (node : Graph.Node) (a : Activation),
    p.graph.options.at? i = some node → m.options[i]? = some a → a.ranIn c.number = true →
    p.environment.symbols.AdmitsAll node.parameters.typing? a.parameters

/-- The parameters of an option that is asked to run hold elements. -/
def Task.HoldsElements (p : Program σ) (m : Machine σ) : Task → Prop
  | .option i => ∀ (node : Graph.Node) (a : Activation), p.graph.options.at? i = some node →
    m.options[i]? = some a → p.environment.symbols.AdmitsAll node.parameters.typing? a.parameters
  | _ => True

/-- All that an action refers to has the typing that the option of the action is typed with. -/
theorem Program.Typed.of_placed {p : Program σ} (h : p.Typed) {i : Nat} {state : Graph.State}
    {site : Path} {a : Action} (hp : (Task.action i state site a).Placed p.graph) :
    ∃ node, p.graph.options.at? i = some node ∧ a.Typed p node.parameters.typing? := by
  obtain ⟨n, k, -, hs, ha⟩ := hp
  obtain ⟨node, hn, hstate⟩ := Graph.state?_eq_some.1 hs
  exact ⟨node, hn,
    (h node (Registry.at?_mem hn) state (Registry.at?_mem hstate)).actions a
      (List.mem_of_getElem? ha)⟩

/-- Parameters that are all bound to elements hold elements. -/
theorem Activation.admitsAll_of_bind {y : Symbols σ} {parameters : Parameters Unit}
    {arguments : List Argument} {a b : Activation} (hx : parameters.BoundBy arguments)
    (h : arguments.foldlM bind? a = some b) (hadmits : ∀ x ∈ arguments,
      ∃ t, parameters.typing? x.domain x.index = some t ∧ y.Admits t x.value) :
    y.AdmitsAll parameters.typing? b.parameters := by
  intro d i t x ht hget
  obtain ⟨parameter, hparameter, rfl⟩ := Option.map_eq_some_iff.1 ht
  obtain ⟨v, hv⟩ := hx.exists_mem (Registry.at?_isSome_iff.1 ⟨_, hparameter⟩)
  obtain rfl := Option.some_inj.1 (hget.symm.trans (foldlM_bind?_getElem? h hx.nodup hv))
  obtain ⟨t', ht', hadmitted⟩ := hadmits _ hv
  obtain rfl := Option.some_inj.1 (ht.symm.trans ht')
  exact hadmitted

/-- Assigning an element to an output symbol leaves elements in the variables. -/
theorem Environment.HoldsElements.assign {environment : Environment σ} {w : World σ}
    (hw : environment.HoldsElements w) (howns : environment.OwnsVariables) {d : Domain} {k : Nat}
    {symbol : OutputSymbol σ d} (hk : (environment.symbols.outputs.get d).at? k = some symbol)
    {x : d.Value} (hx : environment.symbols.Admits symbol.typing x) :
    environment.HoldsElements (symbol.binding.write x w) := by
  intro e j other cell hj hcell
  by_cases he : e = .enumerated
  · subst he
    by_cases hdk : (d, k) = (.enumerated, j)
    · cases hdk
      obtain rfl := Option.some_inj.1 (hk.symm.trans hj)
      rw [hcell]
      exact (World.read_write_self _ _ _ _).symm ▸ hx
    · rw [(howns j other cell hj hcell).store d k symbol hk hdk x w]
      exact hw _ j other cell hj hcell
  · exact Symbols.admits_of_ne he _ _

/-- Running a basic behavior leaves elements in the variables. -/
theorem Environment.HoldsElements.call {environment : Environment σ} {w : World σ}
    (hw : environment.HoldsElements w) (howns : environment.OwnsVariables) {j : Nat}
    {behavior : BasicBehavior σ} (hb : environment.behaviors.at? j = some behavior)
    (changed : Bool) : environment.HoldsElements (behavior.call changed w) :=
  hw.of_spares fun k symbol cell hk hcell => (howns k symbol cell hk hcell).call_spares hb changed w

section Traces

variable {p : Program σ} {c : Cycle} {t : Task} {depth : Nat} {m m' : Machine σ}
  {trace : List (Moment σ)}

namespace Machine.HoldsElements

theorem modifyOption (hm : m.HoldsElements p c) {i : Nat} {f : Activation → Activation}
    (hf : ∀ (node : Graph.Node) (a : Activation), p.graph.options.at? i = some node →
      m.options[i]? = some a → (f a).ranIn c.number = true →
      p.environment.symbols.AdmitsAll node.parameters.typing? (f a).parameters) :
    (m.modifyOption i f).HoldsElements p c where
  world := hm.world
  parameters := by
    intro j node a hn ha hr
    by_cases hij : i = j
    · subst hij
      obtain ⟨a, hb, rfl⟩ : ∃ b, m.options[i]? = some b ∧ f b = a := by
        simpa [Machine.modifyOption] using ha
      exact hf node a hn hb hr
    · rw [Machine.modifyOption_getElem?_of_ne hij] at ha
      exact hm.parameters j node a hn ha hr

/-- What an option that has run evaluates reads parameters that hold elements. -/
theorem surroundings (hm : m.HoldsElements p c) {i : Nat} {node : Graph.Node}
    {state : Graph.State} {s : Surroundings σ} (hn : p.graph.options.at? i = some node)
    (hran : m.Ran c i) (hsur : Run.surroundings p c i state m = some (s, m)) :
    p.environment.symbols.AdmitsAll node.parameters.typing? s.parameters := by
  obtain ⟨a, ha, hr, hv⟩ := Machine.RanWith.of_surroundings hran hsur
  rw [← hv]
  exact hm.parameters i node a hn ha hr

/-- An option whose parameters hold elements starts. -/
theorem start (hm : m.HoldsElements p c) {i initial : Nat}
    (ht : (Task.option i).HoldsElements p m) :
    (m.modifyOption i fun a => a.start c initial).HoldsElements p c :=
  hm.modifyOption fun node a hn ha _ => by
    rw [Activation.start_parameters]
    exact ht node a hn ha

theorem finish (hm : m.HoldsElements p c) {i next : Nat} :
    (m.modifyOption i fun a => a.finish c next).HoldsElements p c :=
  hm.modifyOption fun node a hn ha hr => by
    rw [Activation.finish_ranIn] at hr
    rw [Activation.finish_parameters]
    exact hm.parameters i node a hn ha hr

/-- An evaluation that leaves elements in the variables. -/
theorem withStore (hm : m.HoldsElements p c) {store : Store σ}
    (hw : p.environment.HoldsElements store.world) : { m with store }.HoldsElements p c :=
  ⟨hw, hm.parameters⟩

/-- The parameters of an option are bound to elements. -/
theorem bind (hm : m.HoldsElements p c) {target : Nat} {goal : Graph.Node} {a bound : Activation}
    (hgoal : p.graph.options.at? target = some goal) (ha : m.options[target]? = some a)
    (hbound : p.environment.symbols.AdmitsAll goal.parameters.typing? bound.parameters) :
    (m.modifyOption target fun _ => bound).HoldsElements p c ∧
      (Task.option target).HoldsElements p (m.modifyOption target fun _ => bound) := by
  refine ⟨hm.modifyOption fun goal' _ hgoal' _ _ => ?_, fun goal' a' hgoal' ha' => ?_⟩
  · obtain rfl := Option.some_inj.1 (hgoal.symm.trans hgoal')
    exact hbound
  · obtain rfl := Option.some_inj.1 (hgoal.symm.trans hgoal')
    obtain rfl := Option.some_inj.1 ((Machine.modifyOption_getElem? ha).symm.trans ha')
    exact hbound

end Machine.HoldsElements

/-- **The arguments of an activation stay within their enumerations**, so the parameters that are
bound to them hold elements, and so do the variables. -/
theorem Action.activate_staysWithin (howns : p.environment.OwnsVariables) (hf : p.Fits)
    (hc : p.Complete) (htyped : p.Typed) {i target : Nat} {state : Graph.State} {site : Path}
    {bindings : List Binding} {s : Surroundings σ} {arguments : List Argument} {store : Store σ}
    {a bound : Activation}
    (hp : (Task.action i state site (.activate target bindings)).Placed p.graph)
    (hran : m.Ran c i) (hm : m.HoldsElements p c)
    (hsur : Run.surroundings p c i state m = some (s, m))
    (hargs : Run.argumentsAt s site bindings m.store = some (arguments, store))
    (hb : arguments.foldlM Activation.bind? a = some bound)
    (hsupplies : ∀ y ∈ (Action.activate target bindings).yields p.environment s site m.store,
      y.SuppliesElement p.environment) :
    (∀ y ∈ (Action.activate target bindings).yields p.environment s site m.store,
      y.StaysWithin p) ∧ p.environment.HoldsElements store.world ∧
      ∃ goal, p.graph.options.at? target = some goal ∧
        p.environment.symbols.AdmitsAll goal.parameters.typing? bound.parameters := by
  obtain ⟨node, hn, goal, hgoal, hbindings⟩ := htyped.of_placed hp
  obtain ⟨own, goal', hgoal', hfits⟩ := hf.of_action? hp.action?
  obtain rfl := Option.some_inj.1 (hgoal.symm.trans hgoal')
  obtain ⟨goal', hgoal', honce⟩ := hc.activation_boundBy hf hp.action? hargs
  obtain rfl := Option.some_inj.1 (hgoal.symm.trans hgoal')
  obtain ⟨st₁, hvalues, hworld⟩ := Run.values_of_argumentsAt hargs
  -- Options have no slots, so nothing is written when arguments are passed to them.
  change Binding.values s site (p.environment.write (.option target)) 0 _ _ = _ at hvalues
  have hsymbols := Run.surroundings_symbols hsur
  have hsite := Binding.staysWithin howns hsymbols (hm.surroundings hn hran hsur)
    (fun _ _ => by rw [Program.formal?, hgoal]; rfl) hbindings hfits hvalues hm.world hsupplies
  refine ⟨hsite, ?_, goal, hgoal, Activation.admitsAll_of_bind honce hb fun x hx => ?_⟩
  · rw [hworld]
    exact Binding.values_holdsElements howns hsymbols hfits hvalues hm.world
  · obtain ⟨t, ht, hadmits⟩ := hsite _ (Binding.argument_mem_yields hvalues hx)
    rw [Program.formal?, hgoal] at ht
    exact ⟨t, ht, hadmits⟩

/-- **In a typed graph values stay within their enumerations**, and what can be read again holds
elements. -/
theorem Traces.staysWithin (howns : p.environment.OwnsVariables) (hf : p.Fits) (hc : p.Complete)
    (htyped : p.Typed) (h : Traces p c t depth m trace m') (hp : t.Placed p.graph)
    (ho : ∀ i ∈ t.owner?, m.Ran c i) (hm : m.HoldsElements p c) (ht : t.HoldsElements p m)
    (hsupplies : ∀ y ∈ traceYields p trace, y.SuppliesElement p.environment) :
    (∀ y ∈ traceYields p trace, y.StaysWithin p) ∧ m'.HoldsElements p c := by
  induction h with
  | again | skipOption | nil | skipBehavior => exact ⟨nofun, hm⟩
  | @enter i _ _ _ _ m m₁ a _ node state trace s store ha _ hn hb hk hs _ hacts hsur hsel _ ih =>
    subst hb hk
    have hstate := Graph.state?_eq_some.2 ⟨node, hn, hs⟩
    have hran : (m.modifyOption i fun a => a.start c node.initial).Ran c i := Machine.ran_start ha
    rw [traceYields_enter hstate, List.forall_mem_append] at hsupplies ⊢
    obtain ⟨hactions, hm₁⟩ := ih (.enter hn hs) (by rintro _ ⟨⟩; exact hran) (hm.start ht) trivial
      hsupplies.1
    have hsymbols := Run.surroundings_symbols hsur
    have hfits := (hf.options node (Registry.at?_mem hn)).states state (Registry.at?_mem hs)
    have hstateTyped := htyped node (Registry.at?_mem hn) state (Registry.at?_mem hs)
    have hown := hm₁.surroundings hn (hacts.runs.ran_mono hran) hsur
    refine ⟨⟨hactions, Statement.staysWithin howns hsymbols hown hstateTyped.decision
      hfits.decision hsel hm₁.world hsupplies.2⟩, ?_⟩
    have hspares : p.environment.HoldsElements store.world :=
      hm₁.world.of_spares fun _ _ _ hk hcell =>
        Statement.select_spares (howns _ _ _ hk hcell) hsymbols (hsymbols ▸ hfits.decision) hsel
    exact (hm₁.withStore hspares).finish
  | @activate i _ target _ site bindings m _ _ _ s arguments store trace ha _ hsur hargs hb h ih =>
    rw [traceYields_cons, Moment.yields_action hp.action?, List.forall_mem_append] at hsupplies ⊢
    obtain ⟨hsite, hspares, goal, hgoal, hbound⟩ := Action.activate_staysWithin howns hf hc htyped
      hp (ho i rfl) hm hsur hargs hb hsupplies.1
    obtain ⟨hstart, hparameters⟩ := (hm.withStore hspares).bind hgoal ha hbound
    obtain ⟨hrest, hend⟩ := ih trivial nofun hstart hparameters hsupplies.2
    exact ⟨⟨hsite, hrest⟩, hend⟩
  | @behave i _ target _ site bindings m _ behavior s _ store _ _ hb hsur hargs =>
    obtain ⟨node, hn, behavior', hb', hbindings⟩ := htyped.of_placed hp
    obtain rfl := Option.some_inj.1 (hb.symm.trans hb')
    obtain ⟨own, behavior', hb', hfits⟩ := hf.of_action? hp.action?
    obtain rfl := Option.some_inj.1 (hb.symm.trans hb')
    have hsymbols := Run.surroundings_symbols hsur
    have hown := hm.surroundings hn (ho i rfl) hsur
    rw [← Environment.write_of_parameters? (Environment.parameters?_behavior hb)] at hargs
    rw [traceYields_behave hp.action?] at hsupplies ⊢
    exact ⟨Binding.staysWithin howns hsymbols hown (fun _ _ => by rw [Program.formal?, hb]; rfl)
      hbindings hfits hargs hm.world hsupplies,
      (Binding.values_holdsElements howns hsymbols hfits hargs hm.world).call howns hb _,
      hm.parameters⟩
  | @assign i _ k d expression _ site m s x store symbol hsur hx hk =>
    obtain ⟨node, hn, symbol', hk', htyping, hexpression⟩ := htyped.of_placed hp
    obtain rfl := Option.some_inj.1 (hk.symm.trans hk')
    obtain ⟨own, -, hfits, -⟩ := hf.of_action? hp.action?
    have hsymbols := Run.surroundings_symbols hsur
    have hown := hm.surroundings hn (ho i rfl) hsur
    rw [traceYields_assign hp.action?, Action.yields, Evaluate.next_eq hx, List.forall_mem_append]
      at hsupplies ⊢
    have hvalue := Expr.staysWithin howns hsymbols hown site expression hexpression hfits hx
      hm.world hsupplies.1
    have hadmits : p.environment.symbols.Admits symbol.typing x := by
      rw [htyping]
      exact Expr.admits_of_staysWithin hx hvalue
    have hworld := Expr.value_holdsElements howns hsymbols hfits hx hm.world
    refine ⟨⟨hvalue, ?_⟩, hworld.assign howns hk hadmits, hm.parameters⟩
    rintro _ ⟨⟩
    · exact ⟨symbol, hk, hadmits⟩
    · contradiction
  | cons h hs ih ihs =>
    rw [traceYields_append, List.forall_mem_append] at hsupplies ⊢
    obtain ⟨hhead, hm₁⟩ := ih hp.head ho hm trivial hsupplies.1
    obtain ⟨htail, hm'⟩ := ihs hp.tail (fun i hi => h.runs.ran_mono (ho i hi)) hm₁ trivial
      hsupplies.2
    exact ⟨⟨hhead, htail⟩, hm'⟩

end Traces

end BehaviorEngine
