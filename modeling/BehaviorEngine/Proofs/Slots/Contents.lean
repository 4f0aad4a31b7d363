import BehaviorEngine.Proofs.Host.Cells
import BehaviorEngine.Proofs.Slots.Trace

/-!
What slots hold. If slots are cells of their own that the host never writes, each slot holds what an
evaluation has written into it last. So a call site finds an argument of its own in its slot exactly
if no other argument has been written there since.
-/

namespace BehaviorEngine

open Grammar (BindsEachOnce)

variable {σ : Type}

/-! ### Slots -/

/-- The cell that is the slot of a formal parameter. -/
def Formal.slot? (y : Symbols σ) (f : Formal) : Option String := do
  let symbol ← (y.inputs.get f.domain).at? f.symbol
  let p ← (symbol.parameters.get f.kind).at? f.index
  return p.slot

theorem Formal.slot?_eq_some_iff {y : Symbols σ} {f : Formal} {name : String} :
    f.slot? y = some name ↔ ∃ symbol p, (y.inputs.get f.domain).at? f.symbol = some symbol ∧
      (symbol.parameters.get f.kind).at? f.index = some p ∧ p.slot = name := by
  simp [Formal.slot?, Option.bind_eq_some_iff]

/-- Two worlds hold the same in all slots of input symbols. -/
def Symbols.SameSlots (y : Symbols σ) (w w' : World σ) : Prop :=
  ∀ (f : Formal) (name : String), f.slot? y = some name → w'.read f.kind name = w.read f.kind name

/-- **Slots are apart**: each formal parameter has a cell of its own as its slot, and no getter and
no callback writes a slot. -/
structure Symbols.SlotsApart (y : Symbols σ) : Prop where
  distinct : ∀ (f f' : Formal) (name : String), f.slot? y = some name → f'.slot? y = some name →
    f.kind = f'.kind → f = f'
  input : ∀ (d : Domain) (i : Nat) (symbol : InputSymbol σ d),
    (y.inputs.get d).at? i = some symbol → ∀ w, y.SameSlots w (symbol.binding.read w).2
  notify : ∀ (d : Domain) (i : Nat) (symbol : InputSymbol σ d),
    (y.inputs.get d).at? i = some symbol → ∀ notify ∈ symbol.parametersChanged, ∀ w,
      y.SameSlots w (notify w)
  output : ∀ (d : Domain) (i : Nat) (symbol : OutputSymbol σ d),
    (y.outputs.get d).at? i = some symbol → ∀ w, y.SameSlots w (symbol.binding.read w).2

/-! ### What is written last -/

section LastWritten

variable {f : Formal} {events : List (SlotEvent σ)} {a : Argument} {d : Domain} {i : Nat}

theorem lastWritten_append {xs zs : List (SlotEvent σ)} :
    lastWritten f (xs ++ zs) = (lastWritten f zs).or (lastWritten f xs) := by
  rw [lastWritten, List.filterMap_append, List.getLast?_append]
  rfl

@[simp] theorem lastWritten_wrote :
    lastWritten f ([.wrote d i a] : List (SlotEvent σ)) =
      if a.formal d i = f then some a else none := by
  by_cases h : a.formal d i = f <;> simp [lastWritten, SlotEvent.written?, h]

theorem lastWritten_cons {e : SlotEvent σ} :
    lastWritten f (e :: events) = (lastWritten f events).or (lastWritten f [e]) := by
  rw [← List.singleton_append, lastWritten_append]

@[simp] theorem lastWritten_append_read {xs : List (SlotEvent σ)} {as : List Argument}
    {w : World σ} : lastWritten f (xs ++ [.read d i as w]) = lastWritten f xs := by
  simp [lastWritten, SlotEvent.written?]

theorem SlotEvent.written?_eq_some {e : SlotEvent σ} (h : e.written? f = some a) :
    ∃ d i, e = .wrote d i a ∧ a.formal d i = f := by
  cases e with
  | wrote d i b =>
    obtain ⟨hf, hb⟩ := Option.ite_none_right_eq_some.1 h
    obtain rfl := Option.some_inj.1 hb
    exact ⟨d, i, rfl, hf⟩
  | read => cases h

/-- What is written last is for the formal parameter in question. -/
theorem lastWritten_eq_some (h : lastWritten f events = some a) :
    ∃ d i, .wrote d i a ∈ events ∧ a.formal d i = f := by
  obtain ⟨e, he, hw⟩ := List.mem_filterMap.1 (List.mem_of_getLast? h)
  obtain ⟨d, i, rfl, hf⟩ := SlotEvent.written?_eq_some hw
  exact ⟨d, i, he, hf⟩

/-- Once something is written, something is written last. -/
theorem lastWritten_of_mem (h : .wrote d i a ∈ events) :
    ∃ b, lastWritten (a.formal d i) events = some b := by
  refine Option.ne_none_iff_exists'.1 fun hnone => ?_
  have hmem : a ∈ events.filterMap (SlotEvent.written? (a.formal d i)) :=
    List.mem_filterMap.2 ⟨_, h, by simp [SlotEvent.written?]⟩
  rw [List.getLast?_eq_none_iff.1 hnone] at hmem
  cases hmem

end LastWritten

/-! ### Contents of slots -/

/-- From one world to another, slots change as some events tell. -/
structure Accounts (y : Symbols σ) (events : List (SlotEvent σ)) (w w' : World σ) : Prop where
  written : ∀ (f : Formal) (name : String) (a : Argument), f.slot? y = some name →
    lastWritten f events = some a → w'.read a.domain name = a.value
  kept : ∀ (f : Formal) (name : String), f.slot? y = some name → lastWritten f events = none →
    w'.read f.kind name = w.read f.kind name

namespace Accounts

variable {y : Symbols σ} {xs zs : List (SlotEvent σ)} {w w' w'' : World σ}

theorem of_sameSlots (h : y.SameSlots w w') : Accounts y [] w w' :=
  ⟨nofun, fun f name hf _ => h f name hf⟩

theorem append (h : Accounts y xs w w') (h' : Accounts y zs w' w'') :
    Accounts y (xs ++ zs) w w'' := by
  refine ⟨fun f name a hf ha => ?_, fun f name hf hnone => ?_⟩
  · rw [lastWritten_append] at ha
    cases hz : lastWritten f zs with
    | some b =>
      rw [hz] at ha
      obtain rfl := Option.some_inj.1 ha
      exact h'.written f name b hf hz
    | none =>
      rw [hz] at ha
      obtain ⟨d, i, -, rfl⟩ := lastWritten_eq_some ha
      exact (h'.kept _ name hf hz).trans (h.written _ name a hf ha)
  · rw [lastWritten_append, Option.or_eq_none_iff] at hnone
    exact (h'.kept f name hf hnone.1).trans (h.kept f name hf hnone.2)

/-- A reading writes nothing. -/
theorem read {d : Domain} {i : Nat} {as : List Argument} {v : World σ}
    (h : Accounts y xs w w') : Accounts y (xs ++ [.read d i as v]) w w' := by
  refine ⟨fun f name a hf ha => h.written f name a hf ?_, fun f name hf ha => h.kept f name hf ?_⟩
  · rwa [lastWritten_append_read] at ha
  · rwa [lastWritten_append_read] at ha

/-- **When a slot holds an argument** that was written into it: exactly if no other argument has
been written there since. -/
theorem holds_iff (h : Accounts y xs w w') {d : Domain} {i : Nat} {a : Argument} {name : String}
    (ha : .wrote d i a ∈ xs) (hf : (a.formal d i).slot? y = some name) :
    w'.read a.domain name = a.value ↔ lastWritten (a.formal d i) xs = some a := by
  obtain ⟨b, hb⟩ := lastWritten_of_mem ha
  obtain ⟨_, _, -, hformal⟩ := lastWritten_eq_some hb
  obtain ⟨k, j, x⟩ := a
  obtain ⟨k', j', x'⟩ := b
  obtain ⟨-, -, rfl, rfl⟩ := Formal.mk.inj hformal
  have hx' : w'.read k' name = x' := h.written _ name ⟨k', j', x'⟩ hf hb
  change w'.read k' name = x ↔ _
  rw [hb, hx', Option.some_inj, Argument.mk.injEq]
  simp

end Accounts

namespace Evolves

variable {y : Symbols σ} {st st' : Store σ} {events : List (SlotEvent σ)}

theorem sameSlots_of_notified (hy : y.SlotsApart) {d : Domain} {i : Nat}
    {symbol : InputSymbol σ d} (hs : (y.inputs.get d).at? i = some symbol) {w w' : World σ}
    (hw : w' = w ∨ ∃ notify ∈ symbol.parametersChanged, w' = notify w) : y.SameSlots w w' := by
  rcases hw with rfl | ⟨notify, hn, rfl⟩
  · exact fun _ _ _ => rfl
  · exact hy.notify d i symbol hs notify hn w

theorem accounts_wrote (hy : y.SlotsApart) {d : Domain} {i : Nat} {symbol : InputSymbol σ d}
    {a : Argument} {p : Parameter String a.domain} (hs : (y.inputs.get d).at? i = some symbol)
    (hp : (symbol.parameters.get a.domain).at? a.index = some p) (w : World σ) :
    Accounts y [.wrote d i a] w (w.write a.domain p.slot a.value) := by
  have hslot : (a.formal d i).slot? y = some p.slot :=
    Formal.slot?_eq_some_iff.2 ⟨symbol, p, hs, hp, rfl⟩
  refine ⟨fun f name b hf hb => ?_, fun f name hf hnone => ?_⟩
  · rw [lastWritten_wrote] at hb
    obtain ⟨rfl, hab⟩ := Option.ite_none_right_eq_some.1 hb
    obtain rfl := Option.some_inj.1 hab
    obtain rfl := Option.some_inj.1 (hslot.symm.trans hf)
    exact World.read_write_self ..
  · refine World.read_write_of_ne _ _ _ _ fun heq => ?_
    obtain ⟨hkind, rfl⟩ := Prod.mk.inj heq
    have := hy.distinct (a.formal d i) f p.slot hslot hf hkind.symm
    simp [this] at hnone

/-- **After an evaluation each slot holds what was written into it last.** -/
theorem accounts (hy : y.SlotsApart) (h : Evolves y st events st') :
    Accounts y events st.world st'.world := by
  induction h with
  | nil => exact .of_sameSlots fun _ _ _ => rfl
  | append _ _ ih ih' => exact ih.append ih'
  | wrote hs hp st => exact accounts_wrote hy hs hp st.world
  | @read d i symbol _ _ _ _ _ w hs _ _ _ _ hw _ ih =>
    have hread := (ih.append (.of_sameSlots (sameSlots_of_notified hy hs hw))).append
      (.of_sameSlots (hy.input d i symbol hs w))
    simp only [List.append_nil] at hread
    exact hread.read
  | output hs st => exact .of_sameSlots (hy.output _ _ _ hs st.world)

/-! ### Readings -/

/-- An element of two lists behind one another is in the first one or in the second one. -/
theorem append_eq_append_cons {α : Type} {xs zs before after : List α} {x : α}
    (h : xs ++ zs = before ++ x :: after) : (∃ rest, xs = before ++ x :: rest) ∨
      ∃ front, before = xs ++ front ∧ zs = front ++ x :: after := by
  rcases List.append_eq_append_iff.1 h with ⟨front, hb, hz⟩ | ⟨rest, hx, hr⟩
  · exact .inr ⟨front, hb, hz⟩
  · cases rest with
    | nil => exact .inr ⟨[], by simp [hx], hr.symm⟩
    | cons e rest =>
      obtain ⟨rfl, -⟩ := List.cons.inj hr
      exact .inl ⟨rest, hx⟩

/-- **At a reading, slots hold what was written into them last.** The symbol is read with an
argument for each of its parameters, all of them written before. -/
theorem reading (hy : y.SlotsApart) (h : Evolves y st events st') {d : Domain} {i : Nat}
    {as : List Argument} {w : World σ} {before after : List (SlotEvent σ)}
    (he : events = before ++ .read d i as w :: after) :
    Accounts y before st.world w ∧ (∀ a ∈ as, .wrote d i a ∈ before) ∧
      ∃ symbol bindings, (y.inputs.get d).at? i = some symbol ∧
        BindsEachOnce symbol.parameters bindings ∧
        as.map Argument.key = bindings.map Binding.key := by
  induction h generalizing before after with
  | nil | output => simp at he
  | wrote => simp [List.singleton_eq_append_iff] at he
  | append h _ ih ih' =>
    rcases append_eq_append_cons he with ⟨rest, hxs⟩ | ⟨front, rfl, hzs⟩
    · exact ih hxs
    · obtain ⟨hacc, hwrote, hsymbol⟩ := ih' hzs
      exact ⟨(h.accounts hy).append hacc, fun a ha => List.mem_append_right _ (hwrote a ha),
        hsymbol⟩
  | @read d₀ i₀ symbol bindings as₀ st st₁ xs w₀ hs hb hk h hx hw _ ih =>
    rcases append_eq_append_cons he with ⟨rest, hxs⟩ | ⟨front, rfl, hzs⟩
    · exact ih hxs
    · obtain ⟨rfl, hread⟩ : front = [] ∧ SlotEvent.read d₀ i₀ as₀ w₀ = .read d i as w := by
        cases front <;> simp_all
      cases hread
      have hnotify : Accounts y [] st₁.world w :=
        .of_sameSlots (sameSlots_of_notified hy hs hw)
      exact ⟨(h.accounts hy).append hnotify, fun a ha => List.mem_append_left _ (hx a ha),
        symbol, bindings, hs, hb, hk⟩

end Evolves

end BehaviorEngine
