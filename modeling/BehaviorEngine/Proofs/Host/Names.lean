import BehaviorEngine.Proofs.Host.Order

/-!
The names in an environment stand in the order of the registrations that made them: those of
symbols and behaviors in the order in which they were added, those of enumerations in the order in
which they were first mentioned.
-/

namespace BehaviorEngine

variable {σ : Type}

namespace Registration

/-- The input symbol of a domain that a registration adds. -/
def inputOf? (d : Domain) : Registration σ → Option String
  | input d' name _ _ => if d' = d then some name else none
  | _ => none

/-- The output symbol of a domain that a registration adds. -/
def outputOf? (d : Domain) : Registration σ → Option String
  | output d' name _ _ => if d' = d then some name else none
  | _ => none

/-- The basic behavior that a registration adds. -/
def behaviorOf? : Registration σ → Option String
  | behavior name _ _ => some name
  | _ => none

end Registration

theorem Registry.names_of_append {α : Type} {r s : Registry α} {name : String} {x : α}
    (h : r.append name x = .ok s) : s.names = r.names ++ [name] :=
  names_of_entries_concat (entries_of_append h)

namespace Draft

variable {d' : Domain}

/-- The names of the elements that an enumeration has are pairwise different. -/
theorem nodup_elementsOf (e : Draft σ) (n : String) :
    ((e.elementsOf n).map Prod.fst).Nodup := by
  rw [elementsOf]
  cases e.symbols.enumerations.get? n with
  | none => exact .nil
  | some elements => exact elements.nodup

theorem names_setInputs (e : Draft σ) (inputs : Registry (InputSymbol σ d')) (d : Domain) :
    ((e.setInputs d' inputs).symbols.inputs.get d).names =
      if d' = d then inputs.names else (e.symbols.inputs.get d).names := by
  split
  · next h =>
    subst h
    rw [inputs_setInputs]
  · next h => rw [setInputs, PerDomain.get_set_of_ne _ _ (Ne.symm h)]

theorem names_setOutputs (e : Draft σ) (outputs : Registry (OutputSymbol σ d'))
    (d : Domain) : ((e.setOutputs d' outputs).symbols.outputs.get d).names =
      if d' = d then outputs.names else (e.symbols.outputs.get d).names := by
  split
  · next h =>
    subst h
    rw [outputs_setOutputs]
  · next h => rw [setOutputs, PerDomain.get_set_of_ne _ _ (Ne.symm h)]

/-- Names with one more, unless it is among them. -/
theorem names_withEnumeration (e : Draft σ) (n : String) :
    (e.withEnumeration n).symbols.enumerations.names =
      e.symbols.enumerations.names ++ [n].removeAll e.symbols.enumerations.names := by
  by_cases h : n ∈ e.symbols.enumerations.names
  · rw [withEnumeration_of_mem h]
    simp [List.removeAll, h]
  · have hnew : [n].removeAll e.symbols.enumerations.names = [n] := by simp [List.removeAll, h]
    rw [hnew, Registry.names, enumerations_withEnumeration h, List.map_append]
    rfl

theorem names_typed (e : Draft σ) (enumeration : String) (d : Domain) :
    (e.typed enumeration d).symbols.enumerations.names = e.symbols.enumerations.names ++
      (d.mentions? enumeration).toList.removeAll e.symbols.enumerations.names := by
  unfold typed Domain.mentions?
  split
  · exact names_withEnumeration e enumeration
  · exact (List.append_nil _).symm

end Draft

namespace Registration

variable {e e₁ : Draft σ} {r : Registration σ} {rs : List (Registration σ)}

namespace Performs

theorem inputNames_eq (h : r.Performs e e₁) (d : Domain) : (e₁.symbols.inputs.get d).names =
    (e.symbols.inputs.get d).names ++ (r.inputOf? d).toList := by
  cases h with
  | input _ happend =>
    rw [Draft.names_setInputs, Registry.names_of_append happend, inputOf?]
    split
    · next h => subst h; rfl
    · simp
  | inputParameter | inputChanged =>
    rw [Draft.names_setInputs, Registry.names_modifyAt]
    split
    · next h => subst h; exact (List.append_nil _).symm
    · simp [inputOf?]
  | element | behavior => exact (List.append_nil _).symm
  | output | behaviorParameter => simp [inputOf?, Draft.setOutputs]

theorem outputNames_eq (h : r.Performs e e₁) (d : Domain) : (e₁.symbols.outputs.get d).names =
    (e.symbols.outputs.get d).names ++ (r.outputOf? d).toList := by
  cases h with
  | output _ happend =>
    rw [Draft.names_setOutputs, Registry.names_of_append happend, outputOf?]
    split
    · next h => subst h; rfl
    · simp
  | element | behavior | inputChanged => exact (List.append_nil _).symm
  | input | inputParameter | behaviorParameter => simp [outputOf?, Draft.setInputs]

theorem behaviorNames_eq (h : r.Performs e e₁) :
    e₁.behaviors.names = e.behaviors.names ++ r.behaviorOf?.toList := by
  cases h with
  | behavior happend => exact Registry.names_of_append happend
  | behaviorParameter => simp [behaviorOf?]
  | element | inputChanged => exact (List.append_nil _).symm
  | input | inputParameter => simp [behaviorOf?, Draft.setInputs]
  | output => simp [behaviorOf?, Draft.setOutputs]

theorem enumerationNames_eq (h : r.Performs e e₁) : e₁.symbols.enumerations.names =
    e.symbols.enumerations.names ++ r.mentions?.toList.removeAll e.symbols.enumerations.names := by
  cases h with
  | element =>
    rw [Draft.setElements, Registry.names_modifyAt]
    exact Draft.names_withEnumeration _ _
  | input | output | inputParameter | behaviorParameter => exact Draft.names_typed _ _ _
  | behavior | inputChanged => exact (List.append_nil _).symm

end Performs

/-- Enumerations stand in the order in which they are first mentioned. -/
theorem PerformsAll.enumerationNames_eq (h : PerformsAll e rs e₁) : e₁.symbols.enumerations.names =
    e.symbols.enumerations.names ++
      ((rs.filterMap mentions?).removeAll e.symbols.enumerations.names).eraseDups := by
  induction h with
  | nil => simp [List.removeAll]
  | @cons e e₁ e₂ r rs hr _ ih =>
    have hstep := hr.enumerationNames_eq
    generalize e.symbols.enumerations.names = known at hstep ⊢
    have hone : (r.mentions?.toList.removeAll known).eraseDups =
        r.mentions?.toList.removeAll known := by
      cases r.mentions? with
      | none => rfl
      | some n =>
        rw [Option.toList_some, List.cons_removeAll]
        split <;> rfl
    have hrest (ms : List String) : ms.removeAll (known ++ r.mentions?.toList.removeAll known) =
        (ms.removeAll known).removeAll (r.mentions?.toList.removeAll known) := by
      simp [List.removeAll, List.filter_filter, Bool.and_comm]
    have happend (ms ns : List String) :
        (ms ++ ns).removeAll known = ms.removeAll known ++ ns.removeAll known :=
      List.filter_append _ _
    rw [ih, hstep, hrest, filterMap_cons_toList, happend, List.eraseDups_append, hone,
      List.append_assoc]

end Registration

end BehaviorEngine
