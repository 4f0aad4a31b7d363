import BehaviorEngine.Proofs.Expr.Parts

/-!
Evaluation in range: an expression whose positions lead somewhere has a value in every state of the
host, and a decision tree selects one of its targets. Bound arguments keep the positions of their
bindings.
-/

namespace BehaviorEngine

open Partial

variable {σ : Type}

/-- The surroundings are those of an option with the parameters `own`. -/
structure Surroundings.Fits (own : Domain → Nat) (s : Surroundings σ) : Prop where
  parameters : ∀ d, (s.parameters.get d).length = own d
  reachedTarget : ∃ b, s.reachedTarget = some b

/-- An argument is written into the slot of its parameter. -/
theorem Evaluate.writeSlot_eq_some {parameters : Parameters String} {a : Argument}
    {st st' : Store σ} (h : Evaluate.writeSlot parameters a st = some ((), st')) :
    ∃ p, (parameters.get a.domain).at? a.index = some p ∧
      st' = { st with world := st.world.write a.domain p.slot a.value } := by
  obtain ⟨p, st₁, hlift, h⟩ := bind_eq_some.1 h
  obtain ⟨hp, rfl⟩ := lift_eq_some.1 hlift
  exact ⟨p, hp, (modify_eq_some.1 h).symm⟩

/-- A position in range leads to a parameter of a symbol or behavior. -/
theorem Evaluate.writeSlot_succeeds {parameters : Parameters String} {a : Argument}
    (h : a.index < parameters.sizes a.domain) (st : Store σ) :
    Succeeds (Evaluate.writeSlot parameters a) st :=
  (succeeds_lift (Registry.at?_isSome_iff.2 h)).bind fun _ _ _ => succeeds_modify _

theorem Evaluate.readInput_succeeds {d : Domain} (symbol : InputSymbol σ d) (changed : Bool)
    (st : Store σ) : Succeeds (Evaluate.readInput symbol changed) st := by
  unfold Evaluate.readInput
  split
  · exact (succeeds_modify _).bind fun _ _ _ => succeeds_modifyGet _
  · exact (succeeds_pure _).bind fun _ _ _ => succeeds_modifyGet _

section Expressions

variable {s : Surroundings σ} {own : Domain → Nat}

/-- Operands that are evaluated one after another have a value if each of those has that is
reached. -/
theorem Expr.connected_succeeds {path : Path} {op : Connective} {k : Nat}
    {es : List (Expr .boolean)} {st : Store σ}
    (h : ∀ part ∈ Expr.connectedParts s path op k es st, part.Succeeds s) :
    Succeeds (Expr.connected s path op k es) st := by
  induction es generalizing k st with
  | nil => exact succeeds_pure _
  | cons e es ih =>
    obtain ⟨hfirst, hrest⟩ := List.forall_mem_cons.1 h
    refine hfirst.bind fun b st₁ hb => ?_
    rw [Evaluate.next_eq hb] at hrest
    split
    · next hu =>
      rw [if_pos hu] at hrest
      exact ih hrest
    · exact succeeds_pure _

theorem Expr.pair_succeeds {β : Type} {path : Path} {d : Domain} {l r : Expr d} {st : Store σ}
    (h : ∀ part ∈ Expr.pairParts s path l r st, part.Succeeds s) (f : d.Value → d.Value → β) :
    Succeeds (do
      let x ← l.value s (0 :: path)
      let y ← r.value s (1 :: path)
      return f x y : Evaluate σ β) st := by
  obtain ⟨hleft, hright⟩ := List.forall_mem_cons.1 h
  refine hleft.bind fun x st₁ hx => ?_
  rw [Evaluate.next_eq hx] at hright
  exact (hright _ (List.mem_singleton_self _)).bind fun _ _ _ => succeeds_pure _

/-- An expression in range has a value if its parts have. -/
theorem Expr.succeeds_of_parts (hs : s.Fits own) {path : Path} {d : Domain} {e : Expr d}
    {st : Store σ} (he : e.asksHost = false) (hf : e.Fits s.symbols own)
    (h : ∀ part ∈ e.parts s path st, part.Succeeds s) : Succeeds (e.value s path) st := by
  cases e with
  | input | output => cases he
  | literal | stateTime | optionTime => exact succeeds_pure _
  | parameter t i =>
    refine succeeds_lift ⟨_, List.getElem?_eq_getElem ?_⟩
    rw [hs.parameters]
    exact hf
  | choice c y n =>
    obtain ⟨hc, hrest⟩ := List.forall_mem_cons.1 h
    refine hc.bind fun b st₁ hb => ?_
    rw [Evaluate.next_eq hb] at hrest
    cases b with
    | true => exact hrest _ (List.mem_singleton_self _)
    | false => exact hrest _ (List.mem_singleton_self _)
  | arithmetic | relation | sameElement => exact Expr.pair_succeeds h _
  | connective => exact Expr.connected_succeeds h
  | not => exact (h _ (List.mem_singleton_self _)).bind fun _ _ _ => succeeds_pure _
  | reachedTarget => exact succeeds_lift hs.reachedTarget

/-- The bindings of a call site can be evaluated if their expressions can be and the arguments can
be written. -/
theorem Binding.values_succeeds {room : Domain → Nat} {path : Path}
    {write : Argument → Evaluate σ Unit}
    (hw : ∀ a st, a.index < room a.domain → Succeeds (write a) st) {k : Nat} {bs : List Binding}
    (hf : ∀ b ∈ bs, b.Fits s.symbols own room)
    (hvalue : ∀ b ∈ bs, ∀ path st, Succeeds (b.expr.2.value s path) st) (st : Store σ) :
    Succeeds (Binding.values s path write k bs) st := by
  induction bs generalizing k st with
  | nil => exact succeeds_pure _
  | cons b bs ih =>
    cases b with
    | mk d i e =>
      rw [List.forall_mem_cons] at hf hvalue
      refine (hvalue.1 _ st).bind fun x st₁ _ => ?_
      refine (hw ⟨d, i, x⟩ st₁ hf.1.1).bind fun _ st₂ _ => ?_
      exact (ih hf.2 hvalue.2 st₂).bind fun _ _ _ => succeeds_pure _

/-- **An expression in range has a value.** -/
theorem Expr.value_succeeds (hs : s.Fits own) (path : Path) {d : Domain} (e : Expr d)
    (hf : e.Fits s.symbols own) (st : Store σ) : Succeeds (e.value s path) st := by
  induction e using Expr.induction generalizing path st with
  | step e ih =>
    have ih : ∀ x ∈ e.operands, ∀ path st, Succeeds (x.2.value s path) st :=
      fun x hx path st => ih x hx path (hf.operands hx) st
    cases e with
    | input t i bindings =>
      obtain ⟨symbol, hi, -, hb⟩ := hf
      refine (succeeds_lift ⟨symbol, hi⟩).bind fun symbol' st₁ h₁ => ?_
      obtain rfl : symbol = symbol' := by
        have := (lift_eq_some.1 h₁).1
        rw [hi] at this
        exact Option.some_inj.1 this
      refine (Binding.values_succeeds (fun a st ha => Evaluate.writeSlot_succeeds ha st)
        (Binding.allFit_iff.1 hb) (fun b hb => ih _ (List.mem_map_of_mem hb)) st₁).bind
        fun _ _ _ => ?_
      exact (succeeds_modifyGet _).bind fun _ _ _ => Evaluate.readInput_succeeds _ _ _
    | output t i =>
      exact (succeeds_lift (Registry.at?_isSome_iff.2 hf)).bind fun _ _ _ => succeeds_modifyGet _
    | _ =>
      exact Expr.succeeds_of_parts hs rfl hf fun part hp =>
        ih _ (Expr.mem_operands_of_mem_parts hp) part.site part.store

mutual

/-- A decision tree in range selects a state. -/
theorem Statement.select_succeeds (hs : s.Fits own) {states : Nat} (path : Path) (t : Statement)
    (h : t.Fits s.symbols own states) (st : Store σ) : Succeeds (t.select s path) st := by
  cases t with
  | goto => exact succeeds_pure _
  | branch condition yes otherwise =>
    refine (Expr.value_succeeds hs _ condition h.1 st).bind fun b st₁ _ => ?_
    cases b with
    | true => exact Statement.select_succeeds hs _ yes h.2.1 st₁
    | false => exact Alternative.select_succeeds hs _ otherwise h.2.2 st₁

theorem Alternative.select_succeeds (hs : s.Fits own) {states : Nat} (path : Path)
    (t : Alternative) (h : t.Fits s.symbols own states) (st : Store σ) :
    Succeeds (t.select s path) st := by
  cases t with
  | elseIf condition yes otherwise =>
    refine (Expr.value_succeeds hs _ condition h.1 st).bind fun b st₁ _ => ?_
    cases b with
    | true => exact Statement.select_succeeds hs _ yes h.2.1 st₁
    | false => exact Alternative.select_succeeds hs _ otherwise h.2.2 st₁
  | last statement => exact Statement.select_succeeds hs _ statement h st

end

end Expressions

/-! ### Arguments -/

/-- The parameter that an argument is for. -/
def Argument.key (a : Argument) : Domain × Nat := (a.domain, a.index)

/-- The arguments of a call site are evaluated and written one after the other. -/
theorem Binding.values_cons_eq_some {s : Surroundings σ} {path : Path}
    {write : Argument → Evaluate σ Unit} {k : Nat} {d : Domain} {i : Nat} {e : Expr d}
    {bs : List Binding} {st st' : Store σ} {arguments : List Argument}
    (h : Binding.values s path write k (.mk d i e :: bs) st = some (arguments, st')) :
    ∃ x st₁ st₂ rest, e.value s (k :: path) st = some (x, st₁) ∧
      write ⟨d, i, x⟩ st₁ = some ((), st₂) ∧
      Binding.values s path write (k + 1) bs st₂ = some (rest, st') ∧
      ⟨d, i, x⟩ :: rest = arguments := by
  obtain ⟨x, st₁, he, h⟩ := bind_eq_some.1 h
  obtain ⟨_, st₂, hwrite, h⟩ := bind_eq_some.1 h
  obtain ⟨rest, st₃, hrest, h⟩ := bind_eq_some.1 h
  obtain ⟨harguments, rfl⟩ := pure_eq_some.1 h
  exact ⟨x, st₁, st₂, rest, he, hwrite, hrest, harguments⟩

/-- The arguments of a call site are for the parameters that its bindings name. -/
theorem Binding.values_keys {s : Surroundings σ} {path : Path} {write : Argument → Evaluate σ Unit}
    {k : Nat} {bs : List Binding} {st st' : Store σ} {as : List Argument}
    (h : Binding.values s path write k bs st = some (as, st')) :
    as.map Argument.key = bs.map Binding.key := by
  induction bs generalizing k st st' as with
  | nil =>
    obtain ⟨rfl, -⟩ := pure_eq_some.1 h
    rfl
  | cons b bs ih =>
    cases b with
    | mk d i e =>
      obtain ⟨x, st₁, st₂, rest, -, -, hrest, rfl⟩ := Binding.values_cons_eq_some h
      rw [List.map_cons, List.map_cons, ih hrest]
      rfl

/-! ### Targets -/

mutual

theorem Statement.select_mem_targets {s : Surroundings σ} {path : Path} {t : Statement}
    {st st' : Store σ} {i : Nat} (h : t.select s path st = some (i, st')) : i ∈ t.targets := by
  cases t with
  | goto j =>
    obtain ⟨rfl, -⟩ := pure_eq_some.1 h
    exact List.mem_singleton_self _
  | branch condition yes otherwise =>
    obtain ⟨b, st₁, -, h⟩ := bind_eq_some.1 h
    cases b with
    | true => exact List.mem_append_left _ (Statement.select_mem_targets h)
    | false => exact List.mem_append_right _ (Alternative.select_mem_targets h)

theorem Alternative.select_mem_targets {s : Surroundings σ} {path : Path} {t : Alternative}
    {st st' : Store σ} {i : Nat} (h : t.select s path st = some (i, st')) : i ∈ t.targets := by
  cases t with
  | elseIf condition yes otherwise =>
    obtain ⟨b, st₁, -, h⟩ := bind_eq_some.1 h
    cases b with
    | true => exact List.mem_append_left _ (Statement.select_mem_targets h)
    | false => exact List.mem_append_right _ (Alternative.select_mem_targets h)
  | last statement => exact Statement.select_mem_targets (t := statement) h

end

mutual

theorem Statement.Fits.targets_lt {s : Symbols σ} {own : Domain → Nat} {states : Nat}
    {t : Statement} (h : t.Fits s own states) : ∀ i ∈ t.targets, i < states := by
  cases t with
  | goto j =>
    intro i hi
    obtain rfl := List.mem_singleton.1 hi
    exact h
  | branch condition yes otherwise =>
    intro i hi
    rcases List.mem_append.1 hi with hi | hi
    · exact Statement.Fits.targets_lt h.2.1 i hi
    · exact Alternative.Fits.targets_lt h.2.2 i hi

theorem Alternative.Fits.targets_lt {s : Symbols σ} {own : Domain → Nat} {states : Nat}
    {t : Alternative} (h : t.Fits s own states) : ∀ i ∈ t.targets, i < states := by
  cases t with
  | elseIf condition yes otherwise =>
    intro i hi
    rcases List.mem_append.1 hi with hi | hi
    · exact Statement.Fits.targets_lt h.2.1 i hi
    · exact Alternative.Fits.targets_lt h.2.2 i hi
  | last statement => exact Statement.Fits.targets_lt (t := statement) h

end

end BehaviorEngine
