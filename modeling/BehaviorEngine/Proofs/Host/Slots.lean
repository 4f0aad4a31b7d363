import BehaviorEngine.Proofs.Graph.Complete
import BehaviorEngine.Proofs.Host.Log
import BehaviorEngine.Proofs.Slots.Separate

/-!
Slots of symbols and behaviors at the host. If each slot is a cell of its own, and only call sites
write it, then it keeps an argument until another one is written there. A symbol is read, or a
behavior runs, with the arguments of its call site if no slot of its own has been written in
between.
-/

namespace BehaviorEngine

variable {σ : Type}

namespace Environment

variable (environment : Environment σ)

/-- Two worlds hold the same in all slots. -/
def SameSlots (w w' : World σ) : Prop :=
  ∀ (callee : Callee) (d : Domain) (i : Nat) (slot : String),
    environment.slot? callee d i = some slot → w'.read d slot = w.read d slot

/-- **Cells are apart**: each formal parameter of a symbol or a behavior has a cell of its own as
its slot, and only call sites write slots. -/
structure CellsApart : Prop where
  distinct : ∀ (callee callee' : Callee) (d : Domain) (i i' : Nat) (slot : String),
    environment.slot? callee d i = some slot → environment.slot? callee' d i' = some slot →
    callee = callee' ∧ i = i'
  notify : ∀ (callee : Callee) (w : World σ), environment.SameSlots w (environment.notify callee w)
  use : ∀ (callee : Callee) (w : World σ), environment.SameSlots w (environment.use callee w)
  fetch : ∀ (d : Domain) (k : Nat) (symbol : OutputSymbol σ d),
    (environment.symbols.outputs.get d).at? k = some symbol → ∀ w,
      environment.SameSlots w (symbol.binding.read w).2
  store : ∀ (d : Domain) (k : Nat) (symbol : OutputSymbol σ d),
    (environment.symbols.outputs.get d).at? k = some symbol → ∀ x w,
      environment.SameSlots w (symbol.binding.write x w)

/-- A world has some arguments in the slots of their parameters. -/
def Finds (callee : Callee) (arguments : List Argument) (w : World σ) : Prop :=
  ∀ a ∈ arguments, ∀ slot, environment.slot? callee a.domain a.index = some slot →
    w.read a.domain slot = a.value

variable {environment} {callee : Callee} {arguments : List Argument} {w w' : World σ}

/-- Worlds which find the same arguments, one for each parameter, hold the same in the slots of
their target. -/
theorem Finds.read_eq {parameters : Parameters String} (h : environment.Finds callee arguments w)
    (h' : environment.Finds callee arguments w')
    (hp : environment.parameters? callee = some parameters) (hb : parameters.BoundBy arguments)
    {d : Domain} {i : Nat} {slot : String} (hslot : environment.slot? callee d i = some slot) :
    w'.read d slot = w.read d slot := by
  have hparameter : ((parameters.get d).at? i).bind (fun p => some p.slot) = some slot := by
    simpa [Environment.slot?, hp] using hslot
  obtain ⟨_, hparameter, -⟩ := Option.bind_eq_some_iff.1 hparameter
  obtain ⟨x, ha⟩ := hb.exists_mem (Registry.at?_isSome_iff.1 ⟨_, hparameter⟩)
  exact (h' _ ha slot hslot).trans (h _ ha slot hslot).symm

/-- The slots of input symbols are among those of the environment. -/
theorem slot?_input (d : Domain) (i : Nat) (kind : Domain) (j : Nat) :
    environment.slot? (.input d i) kind j = (Formal.mk d i kind j).slot? environment.symbols := by
  cases h : (environment.symbols.inputs.get d).at? i <;>
    simp [Environment.slot?, Environment.parameters?, Formal.slot?, h]

theorem CellsApart.slotsApart (hy : environment.CellsApart) : environment.symbols.SlotsApart where
  distinct := by
    rintro ⟨d, i, kind, j⟩ ⟨d', i', kind', j'⟩ slot hf hf' hkind
    obtain rfl : kind = kind' := hkind
    rw [← slot?_input] at hf hf'
    obtain ⟨hcallee, rfl⟩ := hy.distinct _ _ kind j j' slot hf hf'
    cases hcallee
    rfl
  input := by
    intro d i symbol hs w f slot hf
    have hsame := hy.use (.input d i) w (.input f.domain f.symbol) f.kind f.index slot
      ((slot?_input ..).trans hf)
    simpa [Environment.use, hs] using hsame
  notify := by
    intro d i symbol hs notify hn w f slot hf
    have hsame := hy.notify (.input d i) w (.input f.domain f.symbol) f.kind f.index slot
      ((slot?_input ..).trans hf)
    rw [Option.mem_def] at hn
    simpa [Environment.notify, hs, hn] using hsame
  output := by
    intro d k symbol hs w f slot hf
    exact hy.fetch d k symbol hs w _ _ _ slot ((slot?_input ..).trans hf)

end Environment

namespace Happens

variable {environment : Environment σ} {w w' : World σ} {log rest : List (HostEvent σ)}
  {site : Path} {callee : Callee} {arguments : List Argument}

/-- A slot into which nothing is written keeps its value. -/
theorem read_eq (hy : environment.CellsApart) (h : Happens environment w log w') {d : Domain}
    {i : Nat} {slot : String} (hslot : environment.slot? callee d i = some slot)
    (hn : ∀ site a, .wrote site callee a ∈ log → a.key ≠ (d, i)) :
    w'.read d slot = w.read d slot := by
  induction h with
  | nil => rfl
  | cons h _ ih =>
    refine (ih fun site a ha => hn site a (List.mem_cons_of_mem _ ha)).trans ?_
    cases h with
    | @wrote site callee' a slot' ha w =>
      refine World.read_write_of_ne _ _ _ _ fun heq => ?_
      obtain ⟨rfl, rfl⟩ := Prod.mk.inj heq
      obtain ⟨rfl, rfl⟩ := hy.distinct _ _ _ _ _ _ hslot ha
      exact hn site a (List.mem_cons_self ..) rfl
    | told => exact hy.notify _ _ _ _ _ _ hslot
    | used => exact hy.use _ _ _ _ _ _ hslot
    | fetched hk => exact hy.fetch _ _ _ hk _ _ _ _ _ hslot
    | stored hk => exact hy.store _ _ _ hk _ _ _ _ _ _ hslot

/-- **What a call site has written is found** if no other call site has written slots of the same
target. -/
theorem finds (hy : environment.CellsApart) (h : Happens environment w log w')
    (hfilter : log.filter (HostEvent.isAt site) = arguments.map (.wrote site callee) ++ rest)
    (hrest : ∀ a, .wrote site callee a ∉ rest) (hn : (arguments.map Argument.key).Nodup)
    (hsite : ∀ site' a, .wrote site' callee a ∈ log → site' = site) :
    environment.Finds callee arguments w' := by
  intro a ha slot hslot
  obtain ⟨before, after, rfl⟩ := List.append_of_mem ha
  rw [List.map_append, List.map_cons, List.append_assoc, List.cons_append] at hfilter
  obtain ⟨xs, ys, rfl, -, hys⟩ := List.filter_eq_append_iff.1 hfilter
  obtain ⟨front, zs, rfl, -, -, hzs⟩ := List.filter_eq_cons_iff.1 hys
  obtain ⟨w₁, -, h⟩ := h.split
  obtain ⟨w₂, -, h⟩ := h.split
  cases h with
  | cons hwrote h =>
    cases hwrote with
    | wrote hslot' =>
      obtain rfl := Option.some_inj.1 (hslot.symm.trans hslot')
      refine (h.read_eq hy hslot fun site' b hb hkey => ?_).trans (World.read_write_self ..)
      -- The arguments behind this one are for other parameters.
      obtain rfl := hsite site' b (by simp [hb])
      have hmem : .wrote site' callee b ∈ after.map (.wrote site' callee) ++ rest := by
        rw [← hzs]
        exact List.mem_filter.2 ⟨hb, by simp [HostEvent.isAt, HostEvent.site?]⟩
      have hafter := (List.mem_append.1 hmem).resolve_right (hrest b)
      obtain ⟨c, hc, hcb⟩ := List.mem_map.1 hafter
      cases hcb
      rw [List.map_append, List.map_cons, List.nodup_append] at hn
      refine (List.nodup_cons.1 hn.2.1).1 ?_
      rw [show a.key = b.key from hkey.symm]
      exact List.mem_map_of_mem hc

end Happens

end BehaviorEngine
