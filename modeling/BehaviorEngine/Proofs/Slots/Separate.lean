import BehaviorEngine.Proofs.Slots.Contents

/-!
Call sites that keep their arguments. The bindings of a call site are evaluated one after another,
and each argument is in its slot while the bindings behind it are evaluated. If none of those
mentions the symbol again, no slot is written twice, and the symbol is read with the arguments of
its own call site.
-/

namespace BehaviorEngine

open Partial Evaluate

variable {σ : Type}

/-! ### Mentioned symbols -/

mutual

/-- Whether an expression refers to the input symbol of the domain `d` at the position `i`. -/
def Expr.mentions (d : Domain) (i : Nat) : {k : Domain} → Expr k → Bool
  | _, .literal _ _ => false
  | _, .parameter _ _ => false
  | k, .input _ j bindings => (k = d && j = i) || Binding.anyMentions d i bindings
  | _, .output _ _ => false
  | _, .choice condition yes no => condition.mentions d i || yes.mentions d i || no.mentions d i
  | _, .arithmetic _ left right => left.mentions d i || right.mentions d i
  | _, .stateTime => false
  | _, .optionTime => false
  | _, .connective _ operands => Expr.anyMentions d i operands
  | _, .not operand => operand.mentions d i
  | _, .relation _ left right => left.mentions d i || right.mentions d i
  | _, .sameElement left right => left.mentions d i || right.mentions d i
  | _, .reachedTarget => false
termination_by structural _ e => e

/-- Whether one of some operands refers to an input symbol. -/
def Expr.anyMentions (d : Domain) (i : Nat) : List (Expr .boolean) → Bool
  | [] => false
  | e :: es => e.mentions d i || Expr.anyMentions d i es
termination_by structural es => es

/-- Whether an expression of some bindings refers to an input symbol. -/
def Binding.anyMentions (d : Domain) (i : Nat) : List Binding → Bool
  | [] => false
  | .mk _ _ e :: bs => e.mentions d i || Binding.anyMentions d i bs
termination_by structural bs => bs

end

mutual

/-- Whether at each call site in an expression no binding behind another one refers to the symbol
of the call site. -/
def Expr.separate : {d : Domain} → Expr d → Bool
  | _, .literal _ _ => true
  | _, .parameter _ _ => true
  | d, .input _ i bindings => Binding.allSeparate d i bindings
  | _, .output _ _ => true
  | _, .choice condition yes no => condition.separate && yes.separate && no.separate
  | _, .arithmetic _ left right => left.separate && right.separate
  | _, .stateTime => true
  | _, .optionTime => true
  | _, .connective _ operands => Expr.allSeparate operands
  | _, .not operand => operand.separate
  | _, .relation _ left right => left.separate && right.separate
  | _, .sameElement left right => left.separate && right.separate
  | _, .reachedTarget => true
termination_by structural _ e => e

/-- The same of some operands. -/
def Expr.allSeparate : List (Expr .boolean) → Bool
  | [] => true
  | e :: es => e.separate && Expr.allSeparate es
termination_by structural es => es

/-- The same of the bindings of a call site of the input symbol at the position `i`. -/
def Binding.allSeparate (d : Domain) (i : Nat) : List Binding → Bool
  | [] => true
  | .mk _ _ e :: bs => e.separate && !Binding.anyMentions d i bs && Binding.allSeparate d i bs
termination_by structural bs => bs

end

/-! ### Only mentioned symbols are written -/

section Mentions

variable {s : Surroundings σ} {d : Domain} {i : Nat}

theorem Expr.anyMentions_eq_false_iff {es : List (Expr .boolean)} :
    Expr.anyMentions d i es = false ↔ ∀ e ∈ es, e.mentions d i = false := by
  induction es with
  | nil => simp [Expr.anyMentions]
  | cons e es ih => rw [Expr.anyMentions, Bool.or_eq_false_iff, ih, List.forall_mem_cons]

theorem Binding.anyMentions_eq_false_iff {bs : List Binding} :
    Binding.anyMentions d i bs = false ↔ ∀ b ∈ bs, b.expr.2.mentions d i = false := by
  induction bs with
  | nil => simp [Binding.anyMentions]
  | cons b bs ih =>
    cases b with
    | mk => rw [Binding.anyMentions, Bool.or_eq_false_iff, ih, List.forall_mem_cons, Binding.expr]

/-- What an expression does not mention its operands do not mention. -/
theorem Expr.mentions_operand {k : Domain} {e : Expr k} (h : e.mentions d i = false)
    {x : Σ d, Expr d} (hx : x ∈ e.operands) : x.2.mentions d i = false := by
  cases e with
  | input =>
    rw [Expr.mentions, Bool.or_eq_false_iff] at h
    obtain ⟨b, hb, rfl⟩ := List.mem_map.1 hx
    exact Binding.anyMentions_eq_false_iff.1 h.2 b hb
  | choice =>
    rw [Expr.mentions, Bool.or_eq_false_iff, Bool.or_eq_false_iff] at h
    simp only [Expr.operands, List.mem_cons, List.not_mem_nil, or_false] at hx
    rcases hx with rfl | rfl | rfl
    exacts [h.1.1, h.1.2, h.2]
  | arithmetic | relation | sameElement =>
    rw [Expr.mentions, Bool.or_eq_false_iff] at h
    rcases List.mem_pair.1 hx with rfl | rfl
    exacts [h.1, h.2]
  | connective =>
    obtain ⟨e, he, rfl⟩ := List.mem_map.1 hx
    exact Expr.anyMentions_eq_false_iff.1 h e he
  | not =>
    obtain rfl := List.mem_singleton.1 hx
    exact h
  | _ => cases hx

/-- An evaluation writes no slot of a symbol that the expression does not mention. -/
theorem Expr.not_wrote (path : Path) {k : Domain} (e : Expr k) (hm : e.mentions d i = false)
    (st : Store σ) (a : Argument) : .wrote d i a ∉ e.trace s path st := by
  induction e using Expr.induction generalizing path st with
  | step e ih =>
    have ih : ∀ x ∈ e.operands, ∀ path st, .wrote d i a ∉ x.2.trace s path st :=
      fun x hx path => ih x hx path (Expr.mentions_operand hm hx)
    intro ha
    cases e with
    | input t j bindings =>
      rw [Expr.mentions, Bool.or_eq_false_iff] at hm
      rw [Expr.trace] at ha
      split at ha
      · cases ha
      · rcases Evaluate.mem_append_next.1 ha with ha | ⟨_, _, -, ha⟩
        · rcases Binding.mem_trace ha with ⟨b, -, heq⟩ | ⟨b, hb, path', st', ha⟩
          · cases heq
            simp at hm
          · exact ih _ (List.mem_map_of_mem hb) _ _ ha
        · simp at ha
    | output => cases ha
    | _ =>
      obtain ⟨part, hp, ha⟩ := (Expr.mem_trace rfl).1 ha
      exact ih _ (Expr.mem_operands_of_mem_parts hp) _ _ ha

/-- A call site whose bindings do not mention a symbol writes slots of that symbol only if it is
one of its own, and then those for its bindings. -/
theorem Binding.wrote_of_mem {path : Path} {write : Argument → Evaluate σ Unit} {k : Domain}
    {j n : Nat} {bs : List Binding} (hm : Binding.anyMentions d i bs = false) {st : Store σ}
    {a : Argument} (ha : .wrote d i a ∈ Binding.trace s path write k j n bs st) :
    k = d ∧ j = i ∧ a.key ∈ bs.map Binding.key := by
  rcases Binding.mem_trace ha with ⟨b, hkey, heq⟩ | ⟨b, hb, path', st', ha⟩
  · cases heq
    exact ⟨rfl, rfl, hkey⟩
  · exact absurd ha (Expr.not_wrote _ _ (Binding.anyMentions_eq_false_iff.1 hm b hb) _ a)

end Mentions

/-! ### Readings -/

/-- A reading of a symbol finds the arguments of its call site in the slots. -/
def SlotEvent.FindsArguments (y : Symbols σ) : SlotEvent σ → Prop
  | .wrote .. => True
  | .read d i as w => ∀ a ∈ as, ∀ name, (a.formal d i).slot? y = some name →
    w.read a.domain name = a.value

section Separate

variable {s : Surroundings σ} {own : Domain → Nat}

/-- At a call site whose bindings keep out of its way, each argument is the last one that is
written into its slot. -/
theorem Binding.lastWritten_eq {path : Path} {write : Argument → Evaluate σ Unit} {d : Domain}
    {i k : Nat} {bs : List Binding} (hs : Binding.allSeparate d i bs = true)
    (hn : (bs.map Binding.key).Nodup) {st st' : Store σ} {as : List Argument}
    (h : Binding.values s path write k bs st = some (as, st')) :
    ∀ a ∈ as, lastWritten (a.formal d i) (Binding.trace s path write d i k bs st) = some a := by
  induction bs generalizing k st st' as with
  | nil =>
    obtain ⟨rfl, -⟩ := pure_eq_some.1 h
    simp
  | cons b bs ih =>
    cases b with
    | mk kind j e =>
      obtain ⟨x, st₁, st₂, as, he, hwrite, hvalues, rfl⟩ := Binding.values_cons_eq_some h
      rw [Binding.allSeparate, Bool.and_eq_true, Bool.and_eq_true, Bool.not_eq_true'] at hs
      rw [List.map_cons, List.nodup_cons] at hn
      rw [Binding.trace, Evaluate.next_eq he, Evaluate.next_eq hwrite]
      intro a ha
      rw [lastWritten_append, lastWritten_cons]
      rcases List.mem_cons.1 ha with rfl | ha
      · -- The bindings behind this one are for other parameters.
        have hrest : lastWritten (Argument.formal ⟨kind, j, x⟩ d i)
            (Binding.trace s path write d i (k + 1) bs st₂) = none := by
          refine Option.eq_none_iff_forall_ne_some.2 fun b hb => hn.1 ?_
          obtain ⟨_, _, hmem, hformal⟩ := lastWritten_eq_some hb
          obtain ⟨rfl, rfl, hkind, hindex⟩ := Formal.mk.inj hformal
          have hkey := (Binding.wrote_of_mem hs.1.2 hmem).2.2
          rwa [Argument.key, hkind, hindex] at hkey
        simp [hrest]
      · simp [ih hs.2 hn.2 hvalues a ha]

theorem Expr.allSeparate_iff {es : List (Expr .boolean)} :
    Expr.allSeparate es = true ↔ ∀ e ∈ es, e.separate = true := by
  induction es with
  | nil => simp [Expr.allSeparate]
  | cons e es ih => rw [Expr.allSeparate, Bool.and_eq_true, ih, List.forall_mem_cons]

theorem Binding.separate_of_allSeparate {d : Domain} {i : Nat} {bs : List Binding}
    (h : Binding.allSeparate d i bs = true) : ∀ b ∈ bs, b.expr.2.separate = true := by
  induction bs with
  | nil => exact nofun
  | cons b bs ih =>
    cases b with
    | mk =>
      rw [Binding.allSeparate, Bool.and_eq_true, Bool.and_eq_true] at h
      exact List.forall_mem_cons.2 ⟨h.1.1, ih h.2⟩

/-- Operands of separate expressions are separate. -/
theorem Expr.separate_operand {d : Domain} {e : Expr d} (h : e.separate = true) {x : Σ d, Expr d}
    (hx : x ∈ e.operands) : x.2.separate = true := by
  cases e with
  | input =>
    obtain ⟨b, hb, rfl⟩ := List.mem_map.1 hx
    exact Binding.separate_of_allSeparate h b hb
  | choice =>
    rw [Expr.separate, Bool.and_eq_true, Bool.and_eq_true] at h
    simp only [Expr.operands, List.mem_cons, List.not_mem_nil, or_false] at hx
    rcases hx with rfl | rfl | rfl
    exacts [h.1.1, h.1.2, h.2]
  | arithmetic | relation | sameElement =>
    rw [Expr.separate, Bool.and_eq_true] at h
    rcases List.mem_pair.1 hx with rfl | rfl
    exacts [h.1, h.2]
  | connective =>
    obtain ⟨e, he, rfl⟩ := List.mem_map.1 hx
    exact Expr.allSeparate_iff.1 h e he
  | not =>
    obtain rfl := List.mem_singleton.1 hx
    exact h
  | _ => cases hx

/-- **Readings in separate expressions find the arguments of their call sites.** -/
theorem Expr.findsArguments (hy : s.symbols.SlotsApart) (path : Path) {d : Domain} (e : Expr d)
    (hf : e.Fits s.symbols own) (hs : e.separate = true) (st : Store σ) :
    ∀ ev ∈ e.trace s path st, ev.FindsArguments s.symbols := by
  induction e using Expr.induction generalizing path st with
  | step e ih =>
    have ih : ∀ x ∈ e.operands, ∀ path st, ∀ ev ∈ x.2.trace s path st,
        ev.FindsArguments s.symbols :=
      fun x hx path => ih x hx path (hf.operands hx) (Expr.separate_operand hs hx)
    intro ev hev
    cases e with
    | input t i bindings =>
      obtain ⟨symbol, hi, hb, hfits⟩ := hf
      rw [Expr.trace, hi] at hev
      rcases Evaluate.mem_append_next.1 hev with hev | ⟨as, st₁, hpass, hev⟩
      · rcases Binding.mem_trace hev with ⟨_, -, rfl⟩ | ⟨b, hb, path', st', hev⟩
        · trivial
        · exact ih _ (List.mem_map_of_mem hb) _ _ ev hev
      · obtain rfl := List.mem_singleton.1 hev
        obtain ⟨st₂, hvalues, hw⟩ := Binding.pass_eq_some hpass
        have hevolves := Binding.evolves hi
          (fun b hb => Expr.evolves _ _ (Binding.allFit_iff.1 hfits b hb).expr) hvalues
        intro a ha name hslot
        have hlast := Binding.lastWritten_eq hs hb.nodup hvalues a ha
        have hsame := Evolves.sameSlots_of_notified hy hi hw
        exact (hsame _ name hslot).trans ((hevolves.1.accounts hy).written _ name a hslot hlast)
    | output => cases hev
    | _ =>
      obtain ⟨part, hp, hev⟩ := (Expr.mem_trace rfl).1 hev
      exact ih _ (Expr.mem_operands_of_mem_parts hp) _ _ ev hev

end Separate

end BehaviorEngine
