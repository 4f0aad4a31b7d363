import BehaviorEngine.Proofs.Engine.Calls
import BehaviorEngine.Proofs.Slots.Denotation

/-!
Readings of input symbols in a graph in use. A call site reads its symbol with its own arguments
exactly if no slot of the symbol has been written since by a call site in one of its own bindings;
that is so wherever no binding behind another one refers to the symbol again.
-/

namespace BehaviorEngine

open Partial

variable {σ : Type}

/-! ### Readings -/

namespace Engine

/-- **When call sites read their own arguments.** Let slots be apart, in an engine that has taken
any calls. Every expression of its graph has a value, at any reading of the clocks and in any state
of the host. When an input symbol is read, the slot of a parameter holds the argument of the call
site exactly if that argument is the last one that was written into it. This is so at every reading
if no binding behind another one refers to the symbol of its call site; and where it is so at every
reading, the value is the denotation, if symbols are functions. -/
theorem readings_find_arguments (limits : Limits) (environment : Environment σ) (world : World σ)
    (calls : List (Call σ)) (l : Loaded)
    (hl : ((Engine.new limits environment world).after calls).loaded = some l)
    (hy : environment.symbols.SlotsApart) (n : Graph.Node) (hn : n ∈ l.graph.options.values)
    {d : Domain} (e : Expr d) (he : ⟨d, e⟩ ∈ n.exprs) (s : Surroundings σ)
    (hs : s.symbols = environment.symbols) (hf : s.Fits n.parameters.sizes) (path : Path)
    (st : Store σ) :
    (∀ before d i as w after, e.trace s path st = before ++ .read d i as w :: after →
      ∃ symbol, (s.symbols.inputs.get d).at? i = some symbol ∧
        ∀ kind j p, (symbol.parameters.get kind).at? j = some p → ∃ a ∈ as, a.key = (kind, j) ∧
          (w.read a.domain p.slot = a.value ↔ lastWritten (a.formal d i) before = some a)) ∧
    (e.separate = true → ∀ ev ∈ e.trace s path st, ev.FindsArguments s.symbols) ∧
    ∃ x st', e.value s path st = some (x, st') ∧
      (s.symbols.Functional → (∀ ev ∈ e.trace s path st, ev.FindsArguments s.symbols) →
        e.denote s st.world = some x) := by
  have hr := (InRange.new limits environment world).after calls
  have henvironment := after_environment (Engine.new limits environment world) calls
  have hfits : e.Fits s.symbols n.parameters.sizes := by
    have hprogram := (hr.loaded l hl).program
    rw [henvironment] at hprogram
    exact hs ▸ (hprogram.options n hn).exprs he
  rw [← hs] at hy
  obtain ⟨x, st', hx⟩ := Expr.value_succeeds hf path e hfits st
  have hevolves := Expr.evolves path e hfits hx
  refine ⟨fun before d i as w after htrace => ?_, ?_, x, st', hx, fun hfun hfind => ?_⟩
  · obtain ⟨hacc, hwrote, symbol, bindings, hi, hb, hk⟩ := hevolves.reading hy htrace
    refine ⟨symbol, hi, fun kind j p hp => ?_⟩
    have hkey : (kind, j) ∈ as.map Argument.key :=
      hk ▸ hb.complete kind j (Registry.at?_isSome_iff.1 ⟨p, hp⟩)
    obtain ⟨⟨_, _, x⟩, ha, hkey⟩ := List.mem_map.1 hkey
    obtain ⟨rfl, rfl⟩ := Prod.mk.inj hkey
    exact ⟨_, ha, rfl, hacc.holds_iff (hwrote _ ha)
      (Formal.slot?_eq_some_iff.2 ⟨symbol, p, hi, hp, rfl⟩)⟩
  · exact fun hsep => Expr.findsArguments hy path e hfits hsep st
  · exact Expr.denote_eq hy hfun path e hfits (.refl _) hfind hx

/-! ### A symbol with two parameters -/

/-- An input symbol that is the conjunction of its two parameters, and a variable to assign. -/
def conjunction : Environment Unit where
  symbols := {
    enumerations := Registry.empty
    inputs := ⟨Registry.empty,
      ⟨[("both", {
        typing := ()
        binding := .getter fun w => (w.read .boolean "left" && w.read .boolean "right", w)
        parameters := ⟨Registry.empty, ⟨[("a", ⟨(), "left"⟩), ("b", ⟨(), "right"⟩)], by decide⟩,
          Registry.empty⟩
        parametersChanged := none })], by decide⟩,
      Registry.empty⟩
    outputs := ⟨Registry.empty, ⟨[("out", ⟨(), .cell "out"⟩)], by decide⟩, Registry.empty⟩ }
  behaviors := Registry.empty
  sound := by decide

theorem at?_conjunction {d : Domain} {i : Nat} {symbol : InputSymbol Unit d}
    (h : (conjunction.symbols.inputs.get d).at? i = some symbol) : d = .boolean ∧ i = 0 := by
  cases d with
  | decimal | enumerated => cases h
  | boolean =>
    cases i with
    | zero => exact ⟨rfl, rfl⟩
    | succ i => cases h

theorem output_at?_conjunction {d : Domain} {i : Nat} {symbol : OutputSymbol Unit d}
    (h : (conjunction.symbols.outputs.get d).at? i = some symbol) : d = .boolean ∧ i = 0 := by
  cases d with
  | decimal | enumerated => cases h
  | boolean =>
    cases i with
    | zero => exact ⟨rfl, rfl⟩
    | succ i => cases h

theorem slot?_conjunction {f : Formal} {name : String}
    (h : f.slot? conjunction.symbols = some name) :
    f = ⟨.boolean, 0, .boolean, 0⟩ ∧ name = "left" ∨
      f = ⟨.boolean, 0, .boolean, 1⟩ ∧ name = "right" := by
  obtain ⟨d, i, k, j⟩ := f
  obtain ⟨symbol, p, hs, hp, rfl⟩ := Formal.slot?_eq_some_iff.1 h
  obtain ⟨rfl, rfl⟩ := at?_conjunction hs
  cases hs
  match k, j, p, hp with
  | .boolean, 0, _, rfl => exact .inl ⟨rfl, rfl⟩
  | .boolean, 1, _, rfl => exact .inr ⟨rfl, rfl⟩

/-- The slots of the conjunction are apart. -/
theorem slotsApart_conjunction : conjunction.symbols.SlotsApart where
  distinct := by
    intro f f' name hf hf' _
    rcases slot?_conjunction hf with ⟨rfl, rfl⟩ | ⟨rfl, rfl⟩ <;>
      rcases slot?_conjunction hf' with ⟨rfl, h⟩ | ⟨rfl, h⟩ <;> simp_all
  input := by
    intro d i symbol hs w f name _
    obtain ⟨rfl, rfl⟩ := at?_conjunction hs
    cases hs
    rfl
  notify := by
    intro d i symbol hs notify hn
    obtain ⟨rfl, rfl⟩ := at?_conjunction hs
    cases hs
    cases hn
  output := by
    intro d i symbol hs w f name _
    obtain ⟨rfl, rfl⟩ := output_at?_conjunction hs
    cases hs
    rfl

/-- The conjunction is a function of its slots. -/
theorem functional_conjunction : conjunction.symbols.Functional where
  input_value := by
    intro d i symbol hs w w' _ h
    obtain ⟨rfl, rfl⟩ := at?_conjunction hs
    cases hs
    have hleft := h .boolean 0 _ rfl
    have hright := h .boolean 1 _ rfl
    exact congrArg₂ and hleft hright
  input_alike := by
    intro d i symbol hs w
    obtain ⟨rfl, rfl⟩ := at?_conjunction hs
    cases hs
    exact .refl w
  notify_alike := by
    intro d i symbol hs notify hn
    obtain ⟨rfl, rfl⟩ := at?_conjunction hs
    cases hs
    cases hn
  output_value := by
    intro d i symbol hs w w' h
    obtain ⟨rfl, rfl⟩ := output_at?_conjunction hs
    cases hs
    refine h .boolean "out" fun f _ hf => ?_
    rcases slot?_conjunction hf with ⟨-, hname⟩ | ⟨-, hname⟩ <;> simp at hname
  output_alike := by
    intro d i symbol hs w
    obtain ⟨rfl, rfl⟩ := output_at?_conjunction hs
    cases hs
    exact .refl w

/-- The conjunction of `no` and the conjunction of `yes` and `yes`. -/
def nestedConjunction : Expr .boolean :=
  .input () 0 [.mk .boolean 0 (.literal () false), .mk .boolean 1 (.input () 0
    [.mk .boolean 0 (.literal () true), .mk .boolean 1 (.literal () true)])]

/-- An option without parameters. -/
def surroundings : Surroundings Unit :=
  ⟨conjunction.symbols, PerDomain.ofFn fun _ => [], 0, 0, some false⟩

theorem fits_surroundings {n : Graph.Node} (h : n.parameters.size = 0) :
    surroundings.Fits n.parameters.sizes where
  parameters := fun d => by
    rw [Parameters.sizes_eq_zero h, surroundings, PerDomain.get_ofFn, List.length_nil]
  reachedTarget := ⟨false, rfl⟩

/-- The inner call site has overwritten `no` when the outer one reads. -/
example : (nestedConjunction.value surroundings [] ⟨⟨Cells.empty, ()⟩, Memory.empty⟩).map
    Prod.fst = some true := by decide +kernel

example : nestedConjunction.denote surroundings ⟨Cells.empty, ()⟩ = some false := by
  decide +kernel

/-- The source of an option that assigns the conjunction of the conjunction of `yes` and `yes`
and `no`. The inner call site has read its slots when the outer one writes them. -/
def nestedSource : String :=
  "1 o 0 o 1 s s s 0 1 b out i both 2 b a i both 2 b a v true b b v true b b v false t s 0"

theorem readings_find_arguments_nested : ∃ l n x,
    ((Engine.new Limits.standard conjunction ⟨Cells.empty, ()⟩).after
      [.create nestedSource]).loaded = some l ∧ n ∈ l.graph.options.values ∧ x ∈ n.exprs ∧
    (∀ ev ∈ x.2.trace surroundings [] ⟨⟨Cells.empty, ()⟩, Memory.empty⟩,
      ev.FindsArguments surroundings.symbols) ∧
    ∃ v st', x.2.value surroundings [] ⟨⟨Cells.empty, ()⟩, Memory.empty⟩ = some (v, st') ∧
      x.2.denote surroundings ⟨Cells.empty, ()⟩ = some v := by
  have hg : (Graph.ofSource Limits.standard conjunction nestedSource).toOption.map (fun g =>
      g.options.values.map fun n => (n.exprs.map fun x => x.2.separate, n.parameters.size)) =
      some [([true], 0)] := by
    decide +kernel
  cases h : Graph.ofSource Limits.standard conjunction nestedSource with
  | error => simp [h, Except.toOption] at hg
  | ok g =>
    have hl := loaded_after_create
      (e := Engine.new Limits.standard conjunction (⟨Cells.empty, ()⟩ : World Unit)) h
    simp only [h, Except.toOption, Option.map_some, Option.some_inj] at hg
    obtain ⟨n, hn, hnode⟩ := List.map_eq_singleton_iff.1 hg
    obtain ⟨hexprs, hsize⟩ := Prod.mk.inj hnode
    obtain ⟨x, hx, hseparate⟩ := List.map_eq_singleton_iff.1 hexprs
    have hmem : n ∈ g.options.values := hn ▸ List.mem_singleton_self n
    have hxmem : x ∈ n.exprs := hx ▸ List.mem_singleton_self x
    obtain ⟨-, hfind, v, st', hv, hdenote⟩ :=
      readings_find_arguments _ _ _ _ _ hl slotsApart_conjunction n hmem x.2 hxmem surroundings
        rfl (fits_surroundings hsize) [] ⟨⟨Cells.empty, ()⟩, Memory.empty⟩
    exact ⟨_, n, x, hl, hmem, hxmem, hfind hseparate, v, st', hv,
      hdenote functional_conjunction (hfind hseparate)⟩

end Engine

end BehaviorEngine
