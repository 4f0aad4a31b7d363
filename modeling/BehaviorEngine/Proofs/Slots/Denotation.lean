import BehaviorEngine.Proofs.Slots.Separate

/-!
What expressions denote. If input symbols are functions of their slots, an expression has a value
that does not depend on when its parts are evaluated: the value of an input symbol is that of its
function at the values of the arguments. An evaluation has this value whenever each reading finds
the arguments of its call site.
-/

namespace BehaviorEngine

open Partial Evaluate
open Grammar (BindsEachOnce)

variable {σ : Type}

/-! ### Functions of slots -/

/-- Two worlds hold the same in all cells that are no slots of input symbols. -/
def Symbols.Alike (y : Symbols σ) (w w' : World σ) : Prop :=
  ∀ (kind : Domain) (name : String), (∀ f : Formal, f.kind = kind → f.slot? y ≠ some name) →
    w'.read kind name = w.read kind name

namespace Symbols.Alike

variable {y : Symbols σ} {w w' w'' : World σ}

theorem refl (w : World σ) : y.Alike w w := fun _ _ _ => rfl

theorem symm (h : y.Alike w w') : y.Alike w' w := fun kind name hn => (h kind name hn).symm

theorem trans (h : y.Alike w w') (h' : y.Alike w' w'') : y.Alike w w'' :=
  fun kind name hn => (h' kind name hn).trans (h kind name hn)

theorem write {f : Formal} {name : String} (hf : f.slot? y = some name) (w : World σ)
    (x : f.kind.Value) : y.Alike w (w.write f.kind name x) := by
  intro kind other hother
  refine World.read_write_of_ne _ _ _ _ fun heq => ?_
  obtain ⟨rfl, rfl⟩ := Prod.mk.inj heq
  exact hother f rfl hf

end Symbols.Alike

/-- **Symbols are functions**: the value of an input symbol depends on nothing but its slots and the
cells that are no slots, the value of an output symbol on nothing but these cells, and no getter and
no callback writes one of them. -/
structure Symbols.Functional (y : Symbols σ) : Prop where
  input_value : ∀ (d : Domain) (i : Nat) (symbol : InputSymbol σ d),
    (y.inputs.get d).at? i = some symbol → ∀ w w', y.Alike w w' →
    (∀ kind j p, (symbol.parameters.get kind).at? j = some p →
      w'.read kind p.slot = w.read kind p.slot) →
    (symbol.binding.read w').1 = (symbol.binding.read w).1
  input_alike : ∀ (d : Domain) (i : Nat) (symbol : InputSymbol σ d),
    (y.inputs.get d).at? i = some symbol → ∀ w, y.Alike w (symbol.binding.read w).2
  notify_alike : ∀ (d : Domain) (i : Nat) (symbol : InputSymbol σ d),
    (y.inputs.get d).at? i = some symbol → ∀ notify ∈ symbol.parametersChanged, ∀ w,
      y.Alike w (notify w)
  output_value : ∀ (d : Domain) (i : Nat) (symbol : OutputSymbol σ d),
    (y.outputs.get d).at? i = some symbol → ∀ w w', y.Alike w w' →
    (symbol.binding.read w').1 = (symbol.binding.read w).1
  output_alike : ∀ (d : Domain) (i : Nat) (symbol : OutputSymbol σ d),
    (y.outputs.get d).at? i = some symbol → ∀ w, y.Alike w (symbol.binding.read w).2

namespace Evolves

variable {y : Symbols σ} {st st' : Store σ} {events : List (SlotEvent σ)}

theorem alike_of_notified (hy : y.Functional) {d : Domain} {i : Nat} {symbol : InputSymbol σ d}
    (hs : (y.inputs.get d).at? i = some symbol) {w w' : World σ}
    (hw : w' = w ∨ ∃ notify ∈ symbol.parametersChanged, w' = notify w) : y.Alike w w' := by
  rcases hw with rfl | ⟨notify, hn, rfl⟩
  · exact .refl _
  · exact hy.notify_alike d i symbol hs notify hn w

/-- An evaluation changes no cells but slots. -/
theorem alike (hy : y.Functional) (h : Evolves y st events st') : y.Alike st.world st'.world := by
  induction h with
  | nil => exact .refl _
  | append _ _ ih ih' => exact ih.trans ih'
  | @wrote d i symbol a p hs hp st =>
    exact .write (f := a.formal d i) (Formal.slot?_eq_some_iff.2 ⟨symbol, p, hs, hp, rfl⟩) _ _
  | read hs _ _ _ _ hw _ ih =>
    exact (ih.trans (alike_of_notified hy hs hw)).trans (hy.input_alike _ _ _ hs _)
  | output hs => exact hy.output_alike _ _ _ hs _

end Evolves

/-! ### Arguments in slots -/

/-- The world with an argument in its slot. -/
def InputSymbol.withArgument {d : Domain} (symbol : InputSymbol σ d) (w : World σ) (a : Argument) :
    World σ :=
  match (symbol.parameters.get a.domain).at? a.index with
  | some p => w.write a.domain p.slot a.value
  | none => w

/-- The world with some arguments in their slots. -/
def InputSymbol.withArguments {d : Domain} (symbol : InputSymbol σ d) (as : List Argument)
    (w : World σ) : World σ :=
  as.foldl symbol.withArgument w

section Arguments

variable {y : Symbols σ} {d : Domain} {i : Nat} {symbol : InputSymbol σ d}

theorem InputSymbol.withArguments_alike (hs : (y.inputs.get d).at? i = some symbol)
    (as : List Argument) (w : World σ) : y.Alike w (symbol.withArguments as w) := by
  induction as generalizing w with
  | nil => exact .refl w
  | cons a as ih =>
    refine Symbols.Alike.trans ?_ (ih (symbol.withArgument w a))
    unfold withArgument
    split
    · next p hp =>
      exact .write (f := a.formal d i) (Formal.slot?_eq_some_iff.2 ⟨symbol, p, hs, hp, rfl⟩) _ _
    · exact .refl w

/-- Arguments leave the slots of other parameters alone. -/
theorem InputSymbol.read_withArguments_of_notMem (hy : y.SlotsApart)
    (hs : (y.inputs.get d).at? i = some symbol) {kind : Domain} {j : Nat}
    {p : Parameter String kind} (hp : (symbol.parameters.get kind).at? j = some p)
    {as : List Argument} (ha : (kind, j) ∉ as.map Argument.key) (w : World σ) :
    (symbol.withArguments as w).read kind p.slot = w.read kind p.slot := by
  induction as generalizing w with
  | nil => rfl
  | cons a as ih =>
    rw [List.map_cons, List.mem_cons, not_or] at ha
    refine (ih ha.2 (symbol.withArgument w a)).trans ?_
    unfold withArgument
    split
    · next q hq =>
      refine World.read_write_of_ne _ _ _ _ fun heq => ha.1 ?_
      obtain ⟨hkind, hslot⟩ := Prod.mk.inj heq
      have := hy.distinct ⟨d, i, kind, j⟩ (a.formal d i) p.slot
        (Formal.slot?_eq_some_iff.2 ⟨symbol, p, hs, hp, rfl⟩)
        (Formal.slot?_eq_some_iff.2 ⟨symbol, q, hs, hq, hslot.symm⟩) hkind
      obtain ⟨-, -, hkind, hindex⟩ := Formal.mk.inj this
      rw [Argument.key, hkind, hindex]
    · rfl

/-- Arguments for different parameters are all found in their slots. -/
theorem InputSymbol.read_withArguments (hy : y.SlotsApart)
    (hs : (y.inputs.get d).at? i = some symbol) {as : List Argument}
    (hn : (as.map Argument.key).Nodup) {a : Argument} (ha : a ∈ as) {p : Parameter String a.domain}
    (hp : (symbol.parameters.get a.domain).at? a.index = some p) (w : World σ) :
    (symbol.withArguments as w).read a.domain p.slot = a.value := by
  induction as generalizing w with
  | nil => cases ha
  | cons b as ih =>
    rw [List.map_cons, List.nodup_cons] at hn
    rcases List.mem_cons.1 ha with rfl | ha
    · refine (read_withArguments_of_notMem hy hs hp hn.1 (symbol.withArgument w a)).trans ?_
      rw [withArgument, hp]
      exact World.read_write_self ..
    · exact ih hn.2 ha (symbol.withArgument w b)

end Arguments

/-! ### Denotations -/

mutual

/-- **What an expression denotes in a world**: call by value, with no regard to the order in which
arguments are evaluated and written. -/
def Expr.denote (s : Surroundings σ) (w : World σ) : {d : Domain} → Expr d → Option d.Value
  | _, .literal _ x => some x
  | d, .parameter _ i => (s.parameters.get d)[i]?
  | d, .input _ i bindings => do
    let symbol ← (s.symbols.inputs.get d).at? i
    let arguments ← Binding.denote s w bindings
    return (symbol.binding.read (symbol.withArguments arguments w)).1
  | d, .output _ i => do
    let symbol ← (s.symbols.outputs.get d).at? i
    return (symbol.binding.read w).1
  | _, .choice condition yes no => do
    if ← condition.denote s w then yes.denote s w else no.denote s w
  | _, .arithmetic op left right => return op.apply (← left.denote s w) (← right.denote s w)
  | _, .stateTime => return .ofNat s.stateTime
  | _, .optionTime => return .ofNat s.optionTime
  | _, .connective op operands => Expr.denoteConnected s w op operands
  | _, .not operand => return !(← operand.denote s w)
  | _, .relation op left right => return op.holds (← left.denote s w) (← right.denote s w)
  | _, .sameElement left right => return (← left.denote s w) == (← right.denote s w)
  | _, .reachedTarget => s.reachedTarget
termination_by structural _ e => e

/-- What the operands of a connective denote together. -/
def Expr.denoteConnected (s : Surroundings σ) (w : World σ) (op : Connective) :
    List (Expr .boolean) → Option Bool
  | [] => return op.unit
  | e :: es => do
    let x ← e.denote s w
    if x = op.unit then Expr.denoteConnected s w op es else return x
termination_by structural es => es

/-- The arguments that bindings denote. -/
def Binding.denote (s : Surroundings σ) (w : World σ) : List Binding → Option (List Argument)
  | [] => return []
  | .mk d i e :: bs => return ⟨d, i, ← e.denote s w⟩ :: (← Binding.denote s w bs)
termination_by structural bs => bs

end

/-- A part denotes its value in a world. -/
def Part.Denoted (s : Surroundings σ) (w : World σ) (part : Part σ) : Prop :=
  ∀ {x st'}, part.value s = some (x, st') → part.expression.denote s w = some x

/-! ### Values are denotations -/

section Values

variable {s : Surroundings σ} {own : Domain → Nat} {w : World σ}

/-- A symbol that finds arguments in its slots has the value of its function at them. -/
theorem InputSymbol.read_eq (hy : s.symbols.SlotsApart) (hfun : s.symbols.Functional) {d : Domain}
    {i : Nat} {symbol : InputSymbol σ d} (hs : (s.symbols.inputs.get d).at? i = some symbol)
    {bindings : List Binding} (hb : BindsEachOnce symbol.parameters bindings)
    {as : List Argument} (hk : as.map Argument.key = bindings.map Binding.key) {v : World σ}
    (hw : s.symbols.Alike w v)
    (hf : SlotEvent.FindsArguments s.symbols (.read d i as v)) :
    (symbol.binding.read (symbol.withArguments as w)).1 = (symbol.binding.read v).1 := by
  refine (hfun.input_value d i symbol hs _ _ ?_ fun kind j p hp => ?_).symm
  · exact (symbol.withArguments_alike hs as w).symm.trans hw
  · have hkey : (kind, j) ∈ as.map Argument.key :=
      hk ▸ hb.complete kind j (Registry.at?_isSome_iff.1 ⟨p, hp⟩)
    obtain ⟨⟨_, _, x⟩, ha, hkey⟩ := List.mem_map.1 hkey
    obtain ⟨rfl, rfl⟩ := Prod.mk.inj hkey
    have hslot := hf _ ha p.slot (Formal.slot?_eq_some_iff.2 ⟨symbol, p, hs, hp, rfl⟩)
    have hnodup : (as.map Argument.key).Nodup := hk ▸ hb.nodup
    exact hslot.trans (symbol.read_withArguments hy hs hnodup ha hp w).symm

/-- The operands of a connective denote its value if those do that are reached. -/
theorem Expr.denoteConnected_of_parts {path : Path} {op : Connective} {k : Nat}
    {es : List (Expr .boolean)} {st st' : Store σ} {x : Bool}
    (h : Expr.connected s path op k es st = some (x, st'))
    (hparts : ∀ part ∈ Expr.connectedParts s path op k es st, part.Denoted s w) :
    Expr.denoteConnected s w op es = some x := by
  induction es generalizing k st with
  | nil =>
    obtain ⟨rfl, -⟩ := pure_eq_some.1 h
    rfl
  | cons e es ih =>
    obtain ⟨b, st₁, he, h⟩ := bind_eq_some.1 h
    rw [Expr.connectedParts, Evaluate.next_eq he, List.forall_mem_cons] at hparts
    have hde := hparts.1 he
    split at h
    · next hu =>
      rw [if_pos hu] at hparts
      simp [Expr.denoteConnected, hde, hu, ih h hparts.2]
    · next hu =>
      obtain ⟨rfl, -⟩ := pure_eq_some.1 h
      simp [Expr.denoteConnected, hde, hu]

/-- **An expression denotes its value if its parts denote theirs.** -/
theorem Expr.denote_of_parts {path : Path} {d : Domain} {e : Expr d} (he : e.asksHost = false)
    {st st' : Store σ} {x : d.Value} (h : e.value s path st = some (x, st'))
    (hparts : ∀ part ∈ e.parts s path st, part.Denoted s w) : e.denote s w = some x := by
  cases e with
  | input | output => cases he
  | literal | stateTime | optionTime =>
    obtain ⟨rfl, -⟩ := pure_eq_some.1 h
    rfl
  | parameter | reachedTarget => exact (lift_eq_some.1 h).1
  | choice c y n =>
    obtain ⟨b, st₁, hc, h⟩ := bind_eq_some.1 h
    rw [Expr.parts, Evaluate.next_eq hc, List.forall_mem_cons] at hparts
    have hdc := hparts.1 hc
    cases b with
    | true => simpa [Expr.denote, hdc] using hparts.2 _ (List.mem_singleton_self _) h
    | false => simpa [Expr.denote, hdc] using hparts.2 _ (List.mem_singleton_self _) h
  | arithmetic _ l r | relation _ l r | sameElement l r =>
    obtain ⟨_, st₁, _, hl, hr, rfl⟩ := pair_eq_some.1 h
    rw [Expr.parts, Expr.pairParts, Evaluate.next_eq hl, List.forall_mem_cons] at hparts
    have hdl := hparts.1 hl
    have hdr := hparts.2 _ (List.mem_singleton_self _) hr
    simp only at hdl hdr
    simp [Expr.denote, hdl, hdr]
  | connective => exact Expr.denoteConnected_of_parts h hparts
  | not e =>
    obtain ⟨_, st₁, he, h⟩ := bind_eq_some.1 h
    obtain ⟨rfl, -⟩ := pure_eq_some.1 h
    have hde := hparts _ (List.mem_singleton_self _) he
    simp only at hde
    simp [Expr.denote, hde]

/-- The bindings of a call site denote their arguments if their expressions denote their values. -/
theorem Binding.denote_eq (hfun : s.symbols.Functional) {path : Path} {d : Domain} {i : Nat}
    {symbol : InputSymbol σ d} (hi : (s.symbols.inputs.get d).at? i = some symbol) {k : Nat}
    {bs : List Binding} (hf : ∀ b ∈ bs, b.Fits s.symbols own symbol.parameters.sizes)
    (hbs : ∀ b ∈ bs, ∀ {path st st' x}, s.symbols.Alike w st.world →
      (∀ ev ∈ b.expr.2.trace s path st, ev.FindsArguments s.symbols) →
      b.expr.2.value s path st = some (x, st') → b.expr.2.denote s w = some x)
    {st st' : Store σ} {as : List Argument} (hw : s.symbols.Alike w st.world)
    (hfind : ∀ ev ∈ Binding.trace s path (writeSlot symbol.parameters) d i k bs st,
      ev.FindsArguments s.symbols)
    (h : Binding.values s path (writeSlot symbol.parameters) k bs st = some (as, st')) :
    Binding.denote s w bs = some as := by
  induction bs generalizing k st as with
  | nil =>
    obtain ⟨rfl, -⟩ := pure_eq_some.1 h
    rfl
  | cons b bs ih =>
    cases b with
    | mk kind j e =>
      rw [List.forall_mem_cons] at hf hbs
      obtain ⟨x, st₁, st₂, as, he, hwrite, hvalues, rfl⟩ := Binding.values_cons_eq_some h
      rw [Binding.trace, Evaluate.next_eq he, Evaluate.next_eq hwrite] at hfind
      obtain ⟨p, hp, rfl⟩ := writeSlot_eq_some hwrite
      have hw₁ := hw.trans ((Expr.evolves _ e hf.1.2 he).alike hfun)
      have hw₂ := hw₁.trans ((Evolves.wrote (a := ⟨kind, j, x⟩) hi hp _).alike hfun)
      have hde := hbs.1 hw (fun ev hev => hfind ev (List.mem_append_left _ hev)) he
      have hdb := ih hf.2 hbs.2 hw₂
        (fun ev hev => hfind ev (List.mem_append_right _ (List.mem_cons_of_mem _ hev))) hvalues
      simp only [Binding.expr] at hde
      simp [Binding.denote, hde, hdb]

/-- **An evaluation has the value that the expression denotes**, if all its readings find the
arguments of their call sites. -/
theorem Expr.denote_eq (hy : s.symbols.SlotsApart) (hfun : s.symbols.Functional) (path : Path)
    {d : Domain} (e : Expr d) (hf : e.Fits s.symbols own) {st st' : Store σ} {x : d.Value}
    (hw : s.symbols.Alike w st.world)
    (hfind : ∀ ev ∈ e.trace s path st, ev.FindsArguments s.symbols)
    (h : e.value s path st = some (x, st')) : e.denote s w = some x := by
  induction e using Expr.induction generalizing path st st' with
  | step e ih =>
    have ih : ∀ y ∈ e.operands, ∀ {path st st' x}, s.symbols.Alike w st.world →
        (∀ ev ∈ y.2.trace s path st, ev.FindsArguments s.symbols) →
        y.2.value s path st = some (x, st') → y.2.denote s w = some x :=
      fun y hy => ih y hy _ (hf.operands hy)
    cases e with
    | input t i bindings =>
      obtain ⟨symbol, hi, hb, hfits⟩ := hf
      obtain ⟨as, st₁, v, hvalues, hnotified, htrace, hx⟩ := Expr.value_input_eq_some hi h
      rw [htrace] at hfind
      have hdenote := Binding.denote_eq hfun hi (Binding.allFit_iff.1 hfits)
        (fun b hb => ih _ (List.mem_map_of_mem hb)) hw
        (fun ev hev => hfind ev (List.mem_append_left _ hev)) hvalues
      have halike := (Binding.evolves hi (fun b hb =>
        Expr.evolves _ _ (Binding.allFit_iff.1 hfits b hb).expr) hvalues).1.alike hfun
      have hread := symbol.read_eq hy hfun hi hb (Binding.values_keys hvalues)
        ((hw.trans halike).trans (Evolves.alike_of_notified hfun hi hnotified))
        (hfind _ (List.mem_append_right _ (List.mem_singleton_self _)))
      simp [Expr.denote, hi, hdenote, hread, hx]
    | output t i =>
      obtain ⟨symbol, st₀, hlift, h⟩ := bind_eq_some.1 h
      obtain ⟨hi, rfl⟩ := lift_eq_some.1 hlift
      obtain ⟨hx, -⟩ := Prod.mk.inj (modifyGet_eq_some.1 h)
      simp [Expr.denote, hi, ← hx, hfun.output_value _ i symbol hi _ _ hw]
    | _ =>
      -- What is no slot holds the same wherever a part begins.
      have halike := ((Expr.leads rfl h).invariant (I := fun st => s.symbols.Alike w st.world) hw
        fun part hp _ _ hvalue hpart => hpart.trans ((Expr.evolves _ _
          (hf.operands (Expr.mem_operands_of_mem_parts hp)) hvalue).alike hfun)).1
      refine Expr.denote_of_parts rfl h fun part hp {_ _} hvalue => ?_
      exact ih _ (Expr.mem_operands_of_mem_parts hp) (halike part hp)
        (fun ev hev => hfind ev ((Expr.mem_trace rfl).2 ⟨part, hp, hev⟩)) hvalue

end Values

end BehaviorEngine
