import BehaviorEngine.Proofs.Host.Account
import BehaviorEngine.Proofs.Renaming.Environments

/-!
The order of registrations. An environment is told by the registrations that made it, and all that
is told depends on which registrations there are and on their order within three kinds of sequences:
the elements of an enumeration, the parameters of an owner, and the functions set on an input
symbol. So the same registrations in another order make the same environment up to positions, as
long as the order within these sequences is kept.
-/

namespace BehaviorEngine

variable {σ : Type}

/-! ### Sequences of registrations -/

theorem filterMap_cons_toList {α β : Type} (f : α → Option β) (a : α) (l : List α) :
    (a :: l).filterMap f = (f a).toList ++ l.filterMap f := by
  cases h : f a <;> simp [h]

namespace Registration.PerformsAll

variable {e e₁ : Draft σ} {r : Registration σ} {rs : List (Registration σ)} {β : Type}

/-- What comes about by a registration of some kind has come about by one of them. -/
theorem iff_exists {P : Draft σ → Prop} {f : Registration σ → Prop}
    (h : PerformsAll e rs e₁) (step : ∀ {e r e₁}, r.Performs e e₁ → (P e₁ ↔ P e ∨ f r)) :
    P e₁ ↔ P e ∨ ∃ r ∈ rs, f r := by
  induction h with
  | nil => simp
  | cons hr _ ih => rw [ih, step hr, List.exists_mem_cons_iff, or_assoc]

/-- What is kept by every registration is kept by all of them. -/
theorem kept {P : Draft σ → Prop} (h : PerformsAll e rs e₁)
    (step : ∀ {e e₁} {r : Registration σ}, r.Performs e e₁ → P e → P e₁) (hp : P e) : P e₁ := by
  induction h with
  | nil => exact hp
  | cons hr _ ih => exact ih (step hr hp)

/-- What a registration makes is there in the end. -/
theorem of_mem {P : Draft σ → Prop} (h : PerformsAll e rs e₁) (hr : r ∈ rs)
    (made : ∀ {e e₁}, r.Performs e e₁ → P e₁)
    (step : ∀ {e e₁} {s : Registration σ}, s.Performs e e₁ → P e → P e₁) : P e₁ := by
  induction h with
  | nil => cases hr
  | cons h hs ih =>
    rcases List.mem_cons.1 hr with rfl | hr
    · exact hs.kept step (made h)
    · exact ih hr

/-- What registrations add one after another is in their order. -/
theorem eq_append {l : Draft σ → List β} {f : Registration σ → Option β}
    (h : PerformsAll e rs e₁) (step : ∀ {e r e₁}, r.Performs e e₁ → l e₁ = l e ++ (f r).toList) :
    l e₁ = l e ++ rs.filterMap f := by
  induction h with
  | nil => simp
  | cons hr _ ih => rw [ih, step hr, List.append_assoc, filterMap_cons_toList]

/-- The last function that is told of new parameters is the one that stays. -/
theorem noticeOf_eq (h : PerformsAll e rs e₁) (d : Domain) (n : String) :
    e₁.noticeOf d n = (rs.filterMap (noticeOf? d n)).getLast?.or (e.noticeOf d n) := by
  induction h with
  | nil => rfl
  | @cons e e₁ e₂ r rs hr _ ih =>
    have hlast : (r.noticeOf? d n).toList.getLast? = r.noticeOf? d n := by
      cases r.noticeOf? d n <;> rfl
    rw [ih, hr.noticeOf_eq, filterMap_cons_toList, List.getLast?_append, hlast, Option.or_assoc]

/-- An owner has the parameters that were registered, in their order. -/
theorem hasParameters (h : PerformsAll e rs e₁) {owner : Owner} {p : Domain}
    {xs : List RegisteredParameter}
    (hxs : List.Forall₂ e.HasParameter ((e.parametersOf owner).get p).entries xs) :
    List.Forall₂ e₁.HasParameter ((e₁.parametersOf owner).get p).entries
      (xs ++ rs.filterMap (parameterOf? owner p)) := by
  induction h generalizing xs with
  | nil => simpa using hxs
  | @cons e e₁ e₂ r rs hr _ ih =>
    obtain ⟨ys, hys, hadded⟩ := hr.adds owner p
    have hkept : List.Forall₂ e₁.HasParameter ((e.parametersOf owner).get p).entries xs :=
      hxs.imp fun _ _ hx => ⟨hx.name, hr.names hx.typing, hx.slot⟩
    have hstep : List.Forall₂ e₁.HasParameter ((e₁.parametersOf owner).get p).entries
        (xs ++ (r.parameterOf? owner p).toList) := hys ▸ List.rel_append hkept hadded
    rw [filterMap_cons_toList, ← List.append_assoc]
    exact ih hstep

end Registration.PerformsAll

/-- **What an environment owes to its registrations.** -/
structure Draft.Reflects (e : Draft σ) (rs : List (Registration σ)) : Prop where
  enumerations : ∀ n, n ∈ e.symbols.enumerations.names ↔ ∃ r ∈ rs, r.mentions? = some n
  elements : ∀ n, e.elementsOf n = rs.filterMap (Registration.elementOf? n)
  inputs : ∀ d n, (¬ ∃ enumeration binding, Registration.input d n enumeration binding ∈ rs) →
    (e.symbols.inputs.get d).get? n = none
  outputs : ∀ d n, (¬ ∃ enumeration binding, Registration.output d n enumeration binding ∈ rs) →
    (e.symbols.outputs.get d).get? n = none
  behaviors : ∀ n, (¬ ∃ run changed, Registration.behavior n run changed ∈ rs) →
    e.behaviors.get? n = none
  hasInput : ∀ {d n enumeration binding}, Registration.input d n enumeration binding ∈ rs →
    e.HasInput d n enumeration binding
  hasOutput : ∀ {d n enumeration binding}, Registration.output d n enumeration binding ∈ rs →
    e.HasOutput d n enumeration binding
  hasBehavior : ∀ {n run changed}, Registration.behavior n run changed ∈ rs →
    e.HasBehavior n run changed
  parameters : ∀ owner p, List.Forall₂ e.HasParameter ((e.parametersOf owner).get p).entries
    (rs.filterMap (Registration.parameterOf? owner p))
  notices : ∀ d n, e.noticeOf d n = (rs.filterMap (Registration.noticeOf? d n)).getLast?

/-- Nothing belongs to an owner that is not there. -/
theorem Draft.parametersOf_empty (owner : Owner) :
    (Draft.empty : Draft σ).parametersOf owner = Parameters.none := by
  cases owner with
  | input d n => cases d <;> rfl
  | behavior n => rfl

/-- **An environment is told by its registrations**, whatever stands between those of one name. -/
theorem Registration.PerformsAll.reflects {rs : List (Registration σ)} {e : Draft σ}
    (h : PerformsAll Draft.empty rs e) : e.Reflects rs where
  enumerations n := by
    rw [h.iff_exists fun hr => hr.mem_enumerations]
    exact or_iff_right List.not_mem_nil
  elements n := h.eq_append fun hr => hr.elementsOf_eq n
  inputs d n hn := by
    refine Option.not_isSome_iff_eq_none.1 fun hs => hn ?_
    rcases (h.iff_exists fun hr => (hr.onInput d n).isSome_iff).1 hs with hempty | ⟨_, hr, heq⟩
    · cases d <;> cases hempty
    · obtain ⟨enumeration, binding, rfl⟩ := heq
      exact ⟨enumeration, binding, hr⟩
  outputs d n hn := by
    refine Option.not_isSome_iff_eq_none.1 fun hs => hn ?_
    rcases (h.iff_exists fun hr => (hr.onOutput d n).isSome_iff).1 hs with hempty | ⟨_, hr, heq⟩
    · cases d <;> cases hempty
    · obtain ⟨enumeration, binding, rfl⟩ := heq
      exact ⟨enumeration, binding, hr⟩
  behaviors n hn := by
    refine Option.not_isSome_iff_eq_none.1 fun hs => hn ?_
    rcases (h.iff_exists fun hr => (hr.onBehavior n).isSome_iff).1 hs with hempty | ⟨_, hr, heq⟩
    · cases hempty
    · obtain ⟨run, changed, rfl⟩ := heq
      exact ⟨run, changed, hr⟩
  hasInput hr := h.of_mem hr Performs.hasInput fun hs => hs.hasInput_mono
  hasOutput hr := h.of_mem hr Performs.hasOutput fun hs => hs.hasOutput_mono
  hasBehavior hr := h.of_mem hr Performs.hasBehavior fun hs => hs.hasBehavior_mono
  parameters owner p := by
    have hempty : List.Forall₂ (Draft.empty : Draft σ).HasParameter
        (((Draft.empty : Draft σ).parametersOf owner).get p).entries [] := by
      rw [Draft.parametersOf_empty, Parameters.none, PerDomain.get_ofFn]
      exact .nil
    exact h.hasParameters hempty
  notices d n := by
    have hempty : (Draft.empty : Draft σ).noticeOf d n = none := by cases d <;> rfl
    rw [h.noticeOf_eq, hempty, Option.or_none]

/-! ### Reordered registrations -/

/-- Registrations whose order counts. -/
inductive Sequence where
  /-- The elements of an enumeration. -/
  | elements (enumeration : String)
  /-- The parameters of an owner. -/
  | parameters (owner : Owner)
  /-- The functions set on an input symbol. -/
  | notices (d : Domain) (symbol : String)
  deriving DecidableEq

namespace Registration

/-- The sequence to which a registration belongs. -/
def sequence? : Registration σ → Option Sequence
  | element enumeration _ _ => some (.elements enumeration)
  | inputParameter d symbol _ _ _ _ => some (.parameters (.input d symbol))
  | behaviorParameter owner _ _ _ _ => some (.parameters (.behavior owner))
  | inputChanged d symbol _ => some (.notices d symbol)
  | input .. | output .. | behavior .. => none

/-- **The same registrations in another order**, which is kept within each sequence. -/
structure Reorders (rs rs' : List (Registration σ)) : Prop where
  perm : rs.Perm rs'
  sequence : ∀ q, rs.filter (·.sequence? = some q) = rs'.filter (·.sequence? = some q)

namespace Reorders

variable {rs rs' : List (Registration σ)}

/-- What is told of one sequence does not depend on the others. -/
theorem filterMap_eq {β : Type} (h : Reorders rs rs') (q : Sequence) {f : Registration σ → Option β}
    (hf : ∀ r, r.sequence? ≠ some q → f r = none) : rs.filterMap f = rs'.filterMap f := by
  have hq : ∀ l : List (Registration σ),
      l.filterMap f = (l.filter (·.sequence? = some q)).filterMap f := by
    intro l
    rw [List.filterMap_filter]
    refine congrArg (List.filterMap · l) (funext fun r => ?_)
    by_cases hr : r.sequence? = some q
    · simp [hr]
    · simp [hr, hf r hr]
  rw [hq rs, h.sequence q, ← hq rs']

theorem elements (h : Reorders rs rs') (n : String) :
    rs.filterMap (elementOf? n) = rs'.filterMap (elementOf? n) := by
  refine h.filterMap_eq (.elements n) fun r hr => ?_
  cases r with
  | element => exact if_neg fun hn => hr (congrArg (some ∘ Sequence.elements) hn)
  | _ => rfl

theorem parameters (h : Reorders rs rs') (owner : Owner) (p : Domain) :
    rs.filterMap (parameterOf? owner p) = rs'.filterMap (parameterOf? owner p) := by
  refine h.filterMap_eq (.parameters owner) fun r hr => ?_
  cases r with
  | inputParameter | behaviorParameter =>
    exact if_neg fun ho => hr (congrArg (some ∘ Sequence.parameters) ho.1)
  | _ => rfl

theorem notices (h : Reorders rs rs') (d : Domain) (n : String) :
    rs.filterMap (noticeOf? d n) = rs'.filterMap (noticeOf? d n) := by
  refine h.filterMap_eq (.notices d n) fun r hr => ?_
  cases r with
  | inputChanged =>
    refine if_neg fun hs => hr ?_
    cases hs
    rfl
  | _ => rfl

end Reorders

end Registration

/-! ### Environments of reordered registrations -/

namespace Draft.Reflects

variable {e e' : Draft σ} {rs rs' : List (Registration σ)} {ρ : Renaming} {d : Domain}

open Registration (Reorders)

/-- An enumeration is there with the same elements. -/
theorem enumeration_eq (h : e.Reflects rs) (h' : e'.Reflects rs') (hrs : Reorders rs rs')
    (n : String) : e'.symbols.enumerations.get? n = (e.symbols.enumerations.get? n).map id := by
  have hmem : n ∈ e'.symbols.enumerations.names ↔ n ∈ e.symbols.enumerations.names := by
    rw [h.enumerations, h'.enumerations]
    simp only [hrs.perm.mem_iff]
  have helements : e'.elementsOf n = e.elementsOf n := by
    rw [h.elements, h'.elements, hrs.elements]
  rw [Option.map_id_apply]
  cases hx : e.symbols.enumerations.get? n with
  | none =>
    rw [Registry.get?_eq_none_iff] at hx ⊢
    rwa [hmem]
  | some x =>
    obtain ⟨x', hx'⟩ := Registry.mem_names_iff.1 (hmem.2 (Registry.mem_names_iff.2 ⟨x, hx⟩))
    rw [elementsOf, elementsOf, hx, hx'] at helements
    rw [hx']
    exact congrArg some (Registry.ext helements)

/-- Enumerations of one name correspond. -/
theorem typing_eq (hρ : e.symbols.enumerations.Moves ρ.enumeration id e'.symbols.enumerations)
    {t t' : d.Typing} {n : String} (ht : e.Names d t n) (ht' : e'.Names d t' n) :
    t' = ρ.typing d t := by
  cases d with
  | decimal | boolean => rfl
  | enumerated => exact Registry.name?_inj ht' ((hρ.name? t).trans ht)

/-- Parameters that were registered alike are alike. -/
theorem entries_eq (hρ : e.symbols.enumerations.Moves ρ.enumeration id e'.symbols.enumerations)
    {xs xs' : List (String × Parameter String d)} {ys : List RegisteredParameter}
    (hxs : List.Forall₂ e.HasParameter xs ys) (hxs' : List.Forall₂ e'.HasParameter xs' ys) :
    xs' = xs.map fun x => (x.1, x.2.rename ρ) := by
  induction hxs generalizing xs' with
  | nil =>
    cases hxs'
    rfl
  | @cons x y xs ys hx _ ih =>
    obtain ⟨x', rest, hx', hrest, rfl⟩ := List.forall₂_cons_right_iff.1 hxs'
    have heq : x' = (x.1, x.2.rename ρ) := by
      have htyping := typing_eq hρ hx.typing hx'.typing
      have hslot := hx'.slot.trans hx.slot.symm
      have hname := hx'.name.trans hx.name.symm
      obtain ⟨_, _, _⟩ := x'
      subst htyping hslot hname
      rfl
    rw [List.map_cons, heq, ih hrest]

/-- An owner has the same parameters, over enumerations of the same names. -/
theorem parameters_eq (h : e.Reflects rs) (h' : e'.Reflects rs') (hrs : Reorders rs rs')
    (hρ : e.symbols.enumerations.Moves ρ.enumeration id e'.symbols.enumerations) (owner : Owner) :
    e'.parametersOf owner = (e.parametersOf owner).rename ρ := by
  refine PerDomain.ext_get fun p => Registry.ext ?_
  rw [Parameters.get_rename, Registry.entries_map]
  exact entries_eq hρ (h.parameters owner p) (hrs.parameters owner p ▸ h'.parameters owner p)

/-- An input symbol is there in both environments or in neither, the same but for positions. -/
theorem input_eq (h : e.Reflects rs) (h' : e'.Reflects rs') (hrs : Reorders rs rs')
    (hρ : e.symbols.enumerations.Moves ρ.enumeration id e'.symbols.enumerations) (n : String) :
    (e'.symbols.inputs.get d).get? n =
      ((e.symbols.inputs.get d).get? n).map (InputSymbol.rename ρ) := by
  by_cases hn : ∃ enumeration binding, Registration.input d n enumeration binding ∈ rs
  · obtain ⟨enumeration, binding, hr⟩ := hn
    obtain ⟨s, hs, hbinding, htyping⟩ := h.hasInput hr
    obtain ⟨s', hs', hbinding', htyping'⟩ := h'.hasInput (hrs.perm.mem_iff.1 hr)
    have ht := typing_eq hρ htyping htyping'
    have hparameters := parameters_eq h h' hrs hρ (.input d n)
    rw [parametersOf, parametersOf, hs, hs'] at hparameters
    have hnotice : e'.noticeOf d n = e.noticeOf d n := by
      rw [h.notices, h'.notices, hrs.notices]
    rw [noticeOf, noticeOf, hs, hs'] at hnotice
    rw [hs, hs', Option.map_some, InputSymbol.rename, hbinding.trans hbinding'.symm, ← ht]
    exact congrArg some (congr (congrArg (InputSymbol.mk s'.typing s'.binding) hparameters) hnotice)
  · have hn' : ¬ ∃ enumeration binding, Registration.input d n enumeration binding ∈ rs' := by
      simpa only [hrs.perm.mem_iff] using hn
    rw [h.inputs d n hn, h'.inputs d n hn', Option.map_none]

/-- An output symbol is there in both environments or in neither, the same but for positions. -/
theorem output_eq (h : e.Reflects rs) (h' : e'.Reflects rs') (hrs : Reorders rs rs')
    (hρ : e.symbols.enumerations.Moves ρ.enumeration id e'.symbols.enumerations) (n : String) :
    (e'.symbols.outputs.get d).get? n =
      ((e.symbols.outputs.get d).get? n).map (OutputSymbol.rename ρ) := by
  by_cases hn : ∃ enumeration binding, Registration.output d n enumeration binding ∈ rs
  · obtain ⟨enumeration, binding, hr⟩ := hn
    obtain ⟨s, hs, hbinding, htyping⟩ := h.hasOutput hr
    obtain ⟨s', hs', hbinding', htyping'⟩ := h'.hasOutput (hrs.perm.mem_iff.1 hr)
    have ht := typing_eq hρ htyping htyping'
    rw [hs, hs', Option.map_some, OutputSymbol.rename, hbinding.trans hbinding'.symm, ← ht]
  · have hn' : ¬ ∃ enumeration binding, Registration.output d n enumeration binding ∈ rs' := by
      simpa only [hrs.perm.mem_iff] using hn
    rw [h.outputs d n hn, h'.outputs d n hn', Option.map_none]

/-- A behavior is there in both environments or in neither, the same but for positions. -/
theorem behavior_eq (h : e.Reflects rs) (h' : e'.Reflects rs') (hrs : Reorders rs rs')
    (hρ : e.symbols.enumerations.Moves ρ.enumeration id e'.symbols.enumerations) (n : String) :
    e'.behaviors.get? n = (e.behaviors.get? n).map (BasicBehavior.rename ρ) := by
  by_cases hn : ∃ run changed, Registration.behavior n run changed ∈ rs
  · obtain ⟨run, changed, hr⟩ := hn
    obtain ⟨b, hb, hrun, hchanged⟩ := h.hasBehavior hr
    obtain ⟨b', hb', hrun', hchanged'⟩ := h'.hasBehavior (hrs.perm.mem_iff.1 hr)
    have hparameters := parameters_eq h h' hrs hρ (.behavior n)
    rw [parametersOf, parametersOf, hb, hb'] at hparameters
    rw [hb, hb', Option.map_some, BasicBehavior.rename, hrun.trans hrun'.symm,
      hchanged.trans hchanged'.symm]
    exact congrArg (fun ps => some (BasicBehavior.mk ps b'.run b'.parametersChanged)) hparameters
  · have hn' : ¬ ∃ run changed, Registration.behavior n run changed ∈ rs' := by
      simpa only [hrs.perm.mem_iff] using hn
    rw [h.behaviors n hn, h'.behaviors n hn', Option.map_none]

/-- **Reordered registrations make the same environment**, up to positions. -/
theorem exists_renames (h : e.Reflects rs) (h' : e'.Reflects rs') (hrs : Reorders rs rs') :
    ∃ ρ, e.Renames ρ e' := by
  obtain ⟨enumeration, hρ⟩ := Registry.exists_moves (enumeration_eq h h' hrs)
  -- Only the positions of enumerations matter for what stands at the others.
  let ρ : Renaming := ⟨enumeration, fun _ => .refl Nat, fun _ => .refl Nat, .refl Nat⟩
  have hinputs : ∀ d, ∃ f, (e.symbols.inputs.get d).Moves f (InputSymbol.rename ρ)
      (e'.symbols.inputs.get d) := fun _ => Registry.exists_moves (input_eq h h' hrs hρ)
  have houtputs : ∀ d, ∃ f, (e.symbols.outputs.get d).Moves f (OutputSymbol.rename ρ)
      (e'.symbols.outputs.get d) := fun _ => Registry.exists_moves (output_eq h h' hrs hρ)
  have hbehaviors : ∃ f, e.behaviors.Moves f (BasicBehavior.rename ρ) e'.behaviors :=
    Registry.exists_moves (behavior_eq h h' hrs hρ)
  obtain ⟨behavior, hbehaviors⟩ := hbehaviors
  choose input hinputs using hinputs
  choose output houtputs using houtputs
  exact ⟨⟨enumeration, input, output, behavior⟩, ⟨hρ, hinputs, houtputs⟩, hbehaviors⟩

end Draft.Reflects

/-- **The order of independent registrations is of no account**: two sequences that succeed make the
same environment, up to positions. -/
theorem Registration.Reorders.exists_renames {rs rs' : List (Registration σ)}
    (h : Reorders rs rs') {e e' : Draft σ}
    (he : (rs.forM perform : Registering σ Unit).runOn Draft.empty = (.ok (), e))
    (he' : (rs'.forM perform : Registering σ Unit).runOn Draft.empty = (.ok (), e')) :
    ∃ ρ, e.Renames ρ e' :=
  (performsAll_of_runOn he).reflects.exists_renames (performsAll_of_runOn he').reflects h

end BehaviorEngine
