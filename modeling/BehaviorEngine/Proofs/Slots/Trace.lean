import BehaviorEngine.Proofs.Graph.Evaluation

/-!
What an evaluation does with the slots of input symbols. The trace of an evaluation lists, in their
order, the arguments that are written into slots and the readings of symbols, each with the world in
which the symbol is read. It follows the evaluation itself, from the store that each part leaves to
the next one.
-/

namespace BehaviorEngine

open Partial Evaluate
open Grammar (BindsEachOnce)

variable {σ : Type}

/-! ### Events -/

/-- A formal parameter of an input symbol: domain and position of the symbol, then those of the
parameter. -/
structure Formal where
  domain : Domain
  symbol : Nat
  kind : Domain
  index : Nat
  deriving DecidableEq

/-- The formal parameter of an input symbol that an argument is for. -/
def Argument.formal (a : Argument) (d : Domain) (i : Nat) : Formal := ⟨d, i, a.domain, a.index⟩

/-- What an evaluation does with the slots of an input symbol: it writes an argument into one of
them, or it reads the symbol, with the arguments of a call site, in some world. -/
inductive SlotEvent (σ : Type) where
  | wrote (domain : Domain) (symbol : Nat) (argument : Argument)
  | read (domain : Domain) (symbol : Nat) (arguments : List Argument) (world : World σ)

/-- The argument that an event writes into the slot of a formal parameter. -/
def SlotEvent.written? (f : Formal) : SlotEvent σ → Option Argument
  | .wrote d i a => if a.formal d i = f then some a else none
  | .read .. => none

/-- The argument that is written last into the slot of a formal parameter. -/
def lastWritten (f : Formal) (events : List (SlotEvent σ)) : Option Argument :=
  (events.filterMap (SlotEvent.written? f)).getLast?

/-! ### Traces -/

/-- What a call site does before it reads its symbol. -/
def Binding.pass {d : Domain} (s : Surroundings σ) (path : Path) (symbol : InputSymbol σ d)
    (bindings : List Binding) : Evaluate σ (List Argument) := do
  let arguments ← Binding.values s path (writeSlot symbol.parameters) 0 bindings
  if ← remember path arguments then host (symbol.parametersChanged.getD id)
  return arguments

mutual

/-- **The trace of the evaluation of an expression.** -/
def Expr.trace (s : Surroundings σ) (path : Path) :
    {d : Domain} → Expr d → Store σ → List (SlotEvent σ)
  | _, .literal _ _, _ => []
  | _, .parameter _ _, _ => []
  | d, .input _ i bindings, st =>
    match (s.symbols.inputs.get d).at? i with
    | none => []
    | some symbol =>
      Binding.trace s path (writeSlot symbol.parameters) d i 0 bindings st ++
        (Binding.pass s path symbol bindings).next st fun arguments st' =>
          [.read d i arguments st'.world]
  | _, .output _ _, _ => []
  | _, .choice condition yes no, st =>
    condition.trace s (0 :: path) st ++ (condition.value s (0 :: path)).next st fun b st' =>
      match b with
      | true => yes.trace s (1 :: path) st'
      | false => no.trace s (2 :: path) st'
  | _, .arithmetic _ left right, st =>
    left.trace s (0 :: path) st ++ (left.value s (0 :: path)).next st fun _ st' =>
      right.trace s (1 :: path) st'
  | _, .stateTime, _ => []
  | _, .optionTime, _ => []
  | _, .connective op operands, st => Expr.connectedTrace s path op 0 operands st
  | _, .not operand, st => operand.trace s (0 :: path) st
  | _, .relation _ left right, st =>
    left.trace s (0 :: path) st ++ (left.value s (0 :: path)).next st fun _ st' =>
      right.trace s (1 :: path) st'
  | _, .sameElement left right, st =>
    left.trace s (0 :: path) st ++ (left.value s (0 :: path)).next st fun _ st' =>
      right.trace s (1 :: path) st'
  | _, .reachedTarget, _ => []
termination_by structural _ e => e

/-- The trace of the evaluation of the operands of a connective from the `k`-th on. -/
def Expr.connectedTrace (s : Surroundings σ) (path : Path) (op : Connective) (k : Nat) :
    List (Expr .boolean) → Store σ → List (SlotEvent σ)
  | [], _ => []
  | operand :: rest, st =>
    operand.trace s (k :: path) st ++ (operand.value s (k :: path)).next st fun x st' =>
      if x = op.unit then Expr.connectedTrace s path op (k + 1) rest st' else []
termination_by structural es => es

/-- The trace of the evaluation of the bindings from the `k`-th on, at a call site of the input
symbol at the position `i`. -/
def Binding.trace (s : Surroundings σ) (path : Path) (write : Argument → Evaluate σ Unit)
    (d : Domain) (i k : Nat) : List Binding → Store σ → List (SlotEvent σ)
  | [], _ => []
  | .mk kind j expression :: rest, st =>
    expression.trace s (k :: path) st ++ (expression.value s (k :: path)).next st fun x st₁ =>
      .wrote d i ⟨kind, j, x⟩ :: (write ⟨kind, j, x⟩).next st₁ fun _ st₂ =>
        Binding.trace s path write d i (k + 1) rest st₂
termination_by structural bs => bs

end

/-- The trace of a part of an evaluation. -/
def Part.trace (s : Surroundings σ) (part : Part σ) : List (SlotEvent σ) :=
  part.expression.trace s part.site part.store

section Parts

variable {s : Surroundings σ} {path : Path} {d : Domain} {st : Store σ}

theorem Expr.connectedTrace_eq {op : Connective} {k : Nat} {es : List (Expr .boolean)} :
    Expr.connectedTrace s path op k es st =
      (Expr.connectedParts s path op k es st).flatMap (Part.trace s) := by
  induction es generalizing k st with
  | nil => rfl
  | cons e es ih =>
    rw [Expr.connectedTrace, Expr.flatMap_connectedParts]
    simp only [ih]
    rfl

/-- **The trace of an evaluation is that of its parts.** -/
theorem Expr.trace_eq {e : Expr d} (he : e.asksHost = false) :
    e.trace s path st = (e.parts s path st).flatMap (Part.trace s) := by
  cases e with
  | input | output => cases he
  | choice => exact (Expr.flatMap_parts_choice (Part.trace s)).symm
  | arithmetic | relation | sameElement => exact (Expr.flatMap_pairParts (Part.trace s)).symm
  | connective => exact Expr.connectedTrace_eq
  | not => exact (List.flatMap_singleton ..).symm
  | _ => rfl

/-- What an evaluation lists is listed for one of its parts. -/
theorem Expr.mem_trace {e : Expr d} (he : e.asksHost = false) {event : SlotEvent σ} :
    event ∈ e.trace s path st ↔ ∃ part ∈ e.parts s path st, event ∈ part.trace s := by
  rw [Expr.trace_eq he, List.mem_flatMap]

/-- What the bindings of a call site list is an argument of theirs that is written, or it is listed
for one of their expressions. -/
theorem Binding.mem_trace {write : Argument → Evaluate σ Unit} {k : Domain} {j n : Nat}
    {bs : List Binding} {event : SlotEvent σ} (h : event ∈ Binding.trace s path write k j n bs st) :
    (∃ a : Argument, a.key ∈ bs.map Binding.key ∧ event = .wrote k j a) ∨
      ∃ b ∈ bs, ∃ path' st', event ∈ b.expr.2.trace s path' st' := by
  induction bs generalizing n st with
  | nil => cases h
  | cons b bs ih =>
    cases b with
    | mk kind m e =>
      rcases Evaluate.mem_append_next.1 h with h | ⟨x, st₁, -, h⟩
      · exact .inr ⟨_, List.mem_cons_self, _, _, h⟩
      · rcases List.mem_cons.1 h with rfl | h
        · exact .inl ⟨⟨kind, m, x⟩, List.mem_cons_self, rfl⟩
        · obtain ⟨_, st₂, -, h⟩ := Evaluate.mem_next.1 h
          exact (ih h).imp
            (fun ⟨a, ha, heq⟩ => ⟨a, List.mem_cons_of_mem _ ha, heq⟩)
            fun ⟨b, hb, hlisted⟩ => ⟨b, List.mem_cons_of_mem _ hb, hlisted⟩

end Parts

/-! ### Call sites -/

/-- A call site reads its symbol once its arguments are passed. -/
theorem Expr.value_input {s : Surroundings σ} {path : Path} {d : Domain} {t : d.Typing} {i : Nat}
    {bindings : List Binding} : (Expr.input t i bindings).value s path =
      (liftM ((s.symbols.inputs.get d).at? i) >>= fun symbol =>
        Binding.pass s path symbol bindings >>= fun _ => ask symbol.binding.read) := by
  rw [Expr.value]
  simp only [Binding.pass, readInput, bind_assoc]
  refine bind_congr fun symbol => bind_congr fun arguments => bind_congr fun changed => ?_
  cases changed <;> rfl

/-- The rest of a call site after its arguments are evaluated. -/
theorem Binding.pass_eq_some {d : Domain} {s : Surroundings σ} {path : Path}
    {symbol : InputSymbol σ d} {bindings : List Binding} {st st' : Store σ}
    {arguments : List Argument}
    (h : Binding.pass s path symbol bindings st = some (arguments, st')) : ∃ st₁,
      Binding.values s path (writeSlot symbol.parameters) 0 bindings st = some (arguments, st₁) ∧
      (st'.world = st₁.world ∨
        ∃ notify ∈ symbol.parametersChanged, st'.world = notify st₁.world) := by
  obtain ⟨as, st₁, hvalues, h⟩ := bind_eq_some.1 h
  obtain ⟨changed, st₂, hremember, h⟩ := bind_eq_some.1 h
  have hworld : st₂.world = st₁.world := by
    have := modifyGet_eq_some.1 hremember
    rw [← (Prod.mk.inj this).2]
  cases changed with
  | false =>
    obtain ⟨rfl, rfl⟩ := pure_eq_some.1 h
    exact ⟨st₁, hvalues, .inl hworld⟩
  | true =>
    obtain ⟨_, st₃, hhost, h⟩ := bind_eq_some.1 h
    obtain ⟨rfl, rfl⟩ := pure_eq_some.1 h
    obtain rfl := modify_eq_some.1 hhost
    refine ⟨st₁, hvalues, ?_⟩
    cases hn : symbol.parametersChanged with
    | none => exact .inl hworld
    | some notify => exact .inr ⟨notify, rfl, congrArg notify hworld⟩

/-- **The value of a call site** is what its symbol has in the world of the last event, with the
values of the bindings as arguments. -/
theorem Expr.value_input_eq_some {s : Surroundings σ} {path : Path} {d : Domain} {t : d.Typing}
    {i : Nat} {symbol : InputSymbol σ d} {bindings : List Binding} {st st' : Store σ} {x : d.Value}
    (hi : (s.symbols.inputs.get d).at? i = some symbol)
    (h : (Expr.input t i bindings).value s path st = some (x, st')) : ∃ arguments st₁ w,
      Binding.values s path (writeSlot symbol.parameters) 0 bindings st = some (arguments, st₁) ∧
      (w = st₁.world ∨ ∃ notify ∈ symbol.parametersChanged, w = notify st₁.world) ∧
      (Expr.input t i bindings).trace s path st =
        Binding.trace s path (writeSlot symbol.parameters) d i 0 bindings st ++
          [.read d i arguments w] ∧
      symbol.binding.read w = (x, st'.world) := by
  rw [Expr.value_input] at h
  obtain ⟨symbol', st₀, hlift, h⟩ := bind_eq_some.1 h
  obtain ⟨hi', rfl⟩ := lift_eq_some.1 hlift
  obtain rfl := Option.some_inj.1 (hi.symm.trans hi')
  obtain ⟨arguments, st₂, hpass, h⟩ := bind_eq_some.1 h
  obtain ⟨st₁, hvalues, hw⟩ := Binding.pass_eq_some hpass
  obtain ⟨rfl, rfl⟩ := Prod.mk.inj (modifyGet_eq_some.1 h)
  refine ⟨arguments, st₁, st₂.world, hvalues, hw, ?_, rfl⟩
  rw [Expr.trace, hi]
  simp only [Evaluate.next_eq hpass]

/-! ### Steps of an evaluation -/

/-- **What an evaluation can do to the store**, with the events that tell it: it writes arguments
into slots, reads input symbols whose arguments it has written, and reads output symbols. -/
inductive Evolves (y : Symbols σ) : Store σ → List (SlotEvent σ) → Store σ → Prop
  | nil (st : Store σ) : Evolves y st [] st
  | append {st st₁ st₂ : Store σ} {xs zs : List (SlotEvent σ)} (h : Evolves y st xs st₁)
      (h' : Evolves y st₁ zs st₂) : Evolves y st (xs ++ zs) st₂
  | wrote {d : Domain} {i : Nat} {symbol : InputSymbol σ d} {a : Argument}
      {p : Parameter String a.domain} (hs : (y.inputs.get d).at? i = some symbol)
      (hp : (symbol.parameters.get a.domain).at? a.index = some p) (st : Store σ) :
      Evolves y st [.wrote d i a] { st with world := st.world.write a.domain p.slot a.value }
  | read {d : Domain} {i : Nat} {symbol : InputSymbol σ d} {bindings : List Binding}
      {arguments : List Argument} {st st₁ : Store σ} {xs : List (SlotEvent σ)} {w : World σ}
      (hs : (y.inputs.get d).at? i = some symbol) (hb : BindsEachOnce symbol.parameters bindings)
      (hk : arguments.map Argument.key = bindings.map Binding.key) (h : Evolves y st xs st₁)
      (hx : ∀ a ∈ arguments, .wrote d i a ∈ xs)
      (hw : w = st₁.world ∨ ∃ notify ∈ symbol.parametersChanged, w = notify st₁.world)
      (memory : Memory) :
      Evolves y st (xs ++ [.read d i arguments w]) ⟨(symbol.binding.read w).2, memory⟩
  | output {d : Domain} {i : Nat} {symbol : OutputSymbol σ d}
      (hs : (y.outputs.get d).at? i = some symbol) (st : Store σ) :
      Evolves y st [] { st with world := (symbol.binding.read st.world).2 }

section Evaluation

variable {s : Surroundings σ} {own : Domain → Nat} {path : Path}

/-- One part after another does what the traces of the parts tell. -/
theorem Leads.evolves {y : Symbols σ} {st st' : Store σ} {parts : List (Part σ)}
    (h : Leads s st parts st') (hparts : ∀ part ∈ parts, ∀ {x st₁},
      part.value s = some (x, st₁) → Evolves y part.store (part.trace s) st₁) :
    Evolves y st (parts.flatMap (Part.trace s)) st' := by
  induction h with
  | nil => exact .nil _
  | cons hvalue _ ih =>
    rw [List.forall_mem_cons] at hparts
    rw [List.flatMap_cons]
    exact (hparts.1 hvalue).append (ih hparts.2)

/-- What the bindings of a call site do is told, if it is for each of their expressions; and all
their arguments are written. -/
theorem Binding.evolves {d : Domain} {i : Nat} {symbol : InputSymbol σ d}
    (hi : (s.symbols.inputs.get d).at? i = some symbol) {k : Nat} {bs : List Binding}
    (hbs : ∀ b ∈ bs, ∀ {path st st' x}, b.expr.2.value s path st = some (x, st') →
      Evolves s.symbols st (b.expr.2.trace s path st) st') {st st' : Store σ}
    {arguments : List Argument}
    (h : Binding.values s path (writeSlot symbol.parameters) k bs st = some (arguments, st')) :
    Evolves s.symbols st (Binding.trace s path (writeSlot symbol.parameters) d i k bs st) st' ∧
      ∀ a ∈ arguments,
        .wrote d i a ∈ Binding.trace s path (writeSlot symbol.parameters) d i k bs st := by
  induction bs generalizing k st arguments with
  | nil =>
    obtain ⟨rfl, rfl⟩ := pure_eq_some.1 h
    exact ⟨.nil _, nofun⟩
  | cons b bs ih =>
    cases b with
    | mk kind j e =>
      rw [List.forall_mem_cons] at hbs
      obtain ⟨x, st₁, st₂, as, he, hwrite, hvalues, rfl⟩ := Binding.values_cons_eq_some h
      obtain ⟨hrest, hwrote⟩ := ih hbs.2 hvalues
      rw [Binding.trace, Evaluate.next_eq he, Evaluate.next_eq hwrite]
      obtain ⟨p, hp, rfl⟩ := writeSlot_eq_some hwrite
      refine ⟨(hbs.1 he).append ((Evolves.wrote hi hp _).append hrest), ?_⟩
      intro a ha
      rcases List.mem_cons.1 ha with rfl | ha
      · exact List.mem_append_right _ (List.mem_cons_self ..)
      · exact List.mem_append_right _ (List.mem_cons_of_mem _ (hwrote a ha))

/-- **An evaluation does what its trace tells.** -/
theorem Expr.evolves (path : Path) {d : Domain} (e : Expr d) (hf : e.Fits s.symbols own)
    {st st' : Store σ} {x : d.Value} (h : e.value s path st = some (x, st')) :
    Evolves s.symbols st (e.trace s path st) st' := by
  induction e using Expr.induction generalizing path st st' with
  | step e ih =>
    have ih : ∀ y ∈ e.operands, ∀ {path st st' x}, y.2.value s path st = some (x, st') →
        Evolves s.symbols st (y.2.trace s path st) st' :=
      fun y hy => ih y hy _ (hf.operands hy)
    cases e with
    | input t i bindings =>
      obtain ⟨symbol, hi, hb, -⟩ := hf
      obtain ⟨arguments, st₁, w, hvalues, hw, htrace, hread⟩ := Expr.value_input_eq_some hi h
      obtain ⟨hevolves, hwrote⟩ :=
        Binding.evolves hi (fun b hb => ih _ (List.mem_map_of_mem hb)) hvalues
      rw [htrace, show st' = ⟨(symbol.binding.read w).2, st'.memory⟩ by rw [hread]]
      exact .read hi hb (Binding.values_keys hvalues) hevolves hwrote hw _
    | output t i =>
      obtain ⟨symbol, st₀, hlift, h⟩ := bind_eq_some.1 h
      obtain ⟨hi, rfl⟩ := lift_eq_some.1 hlift
      obtain ⟨-, rfl⟩ := Prod.mk.inj (modifyGet_eq_some.1 h)
      exact .output hi _
    | _ =>
      rw [Expr.trace_eq rfl]
      exact (Expr.leads rfl h).evolves fun part hp => ih _ (Expr.mem_operands_of_mem_parts hp)

end Evaluation

end BehaviorEngine
