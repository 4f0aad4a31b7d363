import BehaviorEngine.EnvironmentFile.Registration
import BehaviorEngine.Proofs.EnvironmentFile.Prefixes
import BehaviorEngine.Proofs.Host.Cells
import BehaviorEngine.Proofs.Host.Enumerations
import BehaviorEngine.Proofs.Host.Names

/-!
What an environment file declares is what is registered. Each declaration is a registration, which
depends on the declarations above it if it is a parameter of an input symbol. So an environment that
comes about is told by the declarations, and the values that the reader of the file took from its
own table of elements are those of the enumerations.
-/

namespace BehaviorEngine

namespace EnvironmentFile

variable {σ : Type}

/-! ### Parts of a file -/

namespace Declaration

/-- The value that a declaration gives an input symbol. -/
def input? : Declaration → Option ((d : Domain) × String × d.Value)
  | .decimalInput name value => some ⟨.decimal, name, value⟩
  | .booleanInput name value => some ⟨.boolean, name, value⟩
  | .enumeratedInput name _ value => some ⟨.enumerated, name, value⟩
  | _ => none

/-- The input symbol of a domain that a declaration makes. -/
def inputOf? (d : Domain) (x : Declaration) : Option String :=
  x.input?.bind fun input => if input.1 = d then some input.2.1 else none

/-- The output symbol of a domain that a declaration makes. -/
def outputOf? (d : Domain) : Declaration → Option String
  | .decimalOutput name => if .decimal = d then some name else none
  | .booleanOutput name => if .boolean = d then some name else none
  | .enumeratedOutput name _ => if .enumerated = d then some name else none
  | _ => none

/-- The basic behavior that a declaration makes. -/
def behavior? : Declaration → Option String
  | .behavior name => some name
  | _ => none

/-- The element that a declaration adds to an enumeration. -/
def elementOf? (n : String) : Declaration → Option (String × Int32)
  | .element enumeration name value => if enumeration = n then some (name, value) else none
  | _ => none

/-- The enumeration that a declaration names. -/
def enumeration? : Declaration → Option String
  | .element enumeration _ _ => some enumeration
  | .enumeratedInput _ enumeration _ => some enumeration
  | .enumeratedOutput _ enumeration => some enumeration
  | .inputParameter _ p => p.domain.mentions? (p.enumeration.getD "")
  | .behaviorParameter _ p => p.domain.mentions? (p.enumeration.getD "")
  | _ => none

end Declaration

/-- The domain of the input symbol that a parameter line names, below some declarations: symbols of
several domains may have one name. -/
def ownerDomain (above : List Declaration) (symbol : String) : Domain :=
  if symbol ∈ above.filterMap (Declaration.inputOf? .boolean) then .boolean
  else if symbol ∈ above.filterMap (Declaration.inputOf? .enumerated) then .enumerated
  else .decimal

/-- The parameter of a domain that a declaration adds to an owner, below others. -/
def Declaration.parameterOf? (above : List Declaration) (owner : Owner) (p : Domain) :
    Declaration → Option RegisteredParameter
  | .inputParameter symbol x =>
    if Owner.input (ownerDomain above symbol) symbol = owner ∧ x.domain = p then
      some ⟨x.name, x.enumeration.getD "", inputSlot (ownerDomain above symbol) symbol x.name⟩
    else none
  | .behaviorParameter name x =>
    if Owner.behavior name = owner ∧ x.domain = p then
      some ⟨x.name, x.enumeration.getD "", behaviorSlot name x.name⟩
    else none
  | _ => none

/-- The parameters of a domain that declarations add to an owner, below others. -/
def parametersOf (above : List Declaration) (owner : Owner) (p : Domain) :
    List Declaration → List RegisteredParameter
  | [] => []
  | x :: ds => (x.parameterOf? above owner p).toList ++ parametersOf (above ++ [x]) owner p ds

/-! ### Declarations as registrations -/

/-- The registration of a declaration, below others. -/
def Declaration.registration (above : List Declaration) : Declaration → Registration σ
  | .element enumeration name value => .element enumeration name value
  | .decimalInput name _ => .input .decimal name "" (.cell (inputCell name))
  | .booleanInput name _ => .input .boolean name "" (.cell (inputCell name))
  | .enumeratedInput name enumeration _ =>
    .input .enumerated name enumeration (.cell (inputCell name))
  | .decimalOutput name => .output .decimal name "" (.cell (outputCell name))
  | .booleanOutput name => .output .boolean name "" (.cell (outputCell name))
  | .enumeratedOutput name enumeration =>
    .output .enumerated name enumeration (.cell (outputCell name))
  | .inputParameter symbol x =>
    .inputParameter (ownerDomain above symbol) symbol x.domain x.name (x.enumeration.getD "")
      (inputSlot (ownerDomain above symbol) symbol x.name)
  | .behavior name => .behavior name id id
  | .behaviorParameter name x =>
    .behaviorParameter name x.domain x.name (x.enumeration.getD "") (behaviorSlot name x.name)

/-- The registrations of declarations, below others. -/
def registrations (above : List Declaration) : List Declaration → List (Registration σ)
  | [] => []
  | x :: ds => x.registration above :: registrations (above ++ [x]) ds

section Registrations

variable {above ds : List Declaration} {e e₁ : Draft σ}

theorem inputOf?_registration (above : List Declaration) (x : Declaration) (d : Domain) :
    (x.registration above : Registration σ).inputOf? d = x.inputOf? d := by
  cases x <;> rfl

theorem parameterOf?_registration (above : List Declaration) (x : Declaration) (owner : Owner)
    (p : Domain) : (x.registration above : Registration σ).parameterOf? owner p =
      x.parameterOf? above owner p := by
  cases x <;> rfl

theorem registration_of_input? (above : List Declaration) {x : Declaration} {d : Domain}
    {name : String} {value : d.Value} (h : x.input? = some ⟨d, name, value⟩) :
    ∃ enumeration, (x.registration above : Registration σ) =
      .input d name enumeration (.cell (inputCell name)) := by
  cases x <;> cases h <;> exact ⟨_, rfl⟩

/-- What registrations do not owe to the declarations above them is told by the declarations. -/
theorem filterMap_registrations {β : Type} {f : Registration σ → Option β}
    {g : Declaration → Option β} (h : ∀ above x, f (x.registration above) = g x) :
    (registrations above ds).filterMap f = ds.filterMap g := by
  induction ds generalizing above with
  | nil => rfl
  | cons x ds ih =>
    rw [registrations, filterMap_cons_toList, filterMap_cons_toList, h, ih]

theorem filterMap_parameterOf? (owner : Owner) (p : Domain) :
    (registrations above ds : List (Registration σ)).filterMap
      (Registration.parameterOf? owner p) = parametersOf above owner p ds := by
  induction ds generalizing above with
  | nil => rfl
  | cons x ds ih =>
    rw [registrations, filterMap_cons_toList, parameterOf?_registration, ih, parametersOf]

/-- The input symbols of an environment are those that declarations make. -/
def DeclaresInputs (above : List Declaration) (e : Draft σ) : Prop :=
  ∀ d, (e.symbols.inputs.get d).names = above.filterMap (Declaration.inputOf? d)

theorem inputDomain_eq (h : DeclaresInputs above e) (symbol : String) :
    inputDomain e.symbols symbol = ownerDomain above symbol := by
  simp only [inputDomain, ownerDomain, Registry.contains, h .boolean, h .enumerated,
    List.contains_iff_mem]

/-- A declaration is registered as its registration. -/
theorem runOn_register (h : DeclaresInputs above e) (x : Declaration) :
    x.register.runOn e = (x.registration above).perform.runOn e := by
  cases x with
  | inputParameter symbol p =>
    rw [Declaration.register, Stateful.runOn_get_bind]
    simp only [inputDomain_eq h]
    rfl
  | _ => rfl

theorem DeclaresInputs.step {x : Declaration} (h : DeclaresInputs above e)
    (hx : (x.registration above).Performs e e₁) : DeclaresInputs (above ++ [x]) e₁ := by
  intro d
  rw [hx.inputNames_eq, inputOf?_registration, h d, List.filterMap_append, filterMap_cons_toList]
  simp

/-- **Declarations that are registered do what their registrations do.** -/
theorem performsAll_of_register (h : DeclaresInputs above e)
    (hds : (register ds : Registering σ Unit).runOn e = (.ok (), e₁)) :
    Registration.PerformsAll e (registrations above ds) e₁ := by
  induction ds generalizing above e with
  | nil =>
    cases hds
    exact .nil _
  | cons x ds ih =>
    obtain ⟨_, e₂, hx, hds⟩ := Stateful.bind_eq_ok_iff.1 hds
    rw [runOn_register h] at hx
    have hperforms := Registration.performs_of_runOn hx
    exact .cons hperforms (ih (h.step hperforms) hds)

end Registrations

/-! ### Values -/

section Values

variable {ds : List Declaration} {d : Domain} {name : String}

theorem inputCell_injective {m n : String} (h : inputCell m = inputCell n) : m = n := by
  have hlist := congrArg String.toList h
  simp only [inputCell, toString, String.toList_append] at hlist
  simpa [← String.toList_inj] using hlist

theorem store_eq (w : World σ) (x : Declaration) : x.store w = match x.input? with
    | some ⟨d, name, value⟩ => w.write d (inputCell name) value
    | none => w := by
  cases x <;> rfl

theorem read_store_of_ne {x : Declaration} (h : x.inputOf? d ≠ some name) (w : World σ) :
    (x.store w).read d (inputCell name) = w.read d (inputCell name) := by
  rw [store_eq]
  cases hx : x.input? with
  | none => rfl
  | some input =>
    obtain ⟨d', name', value⟩ := input
    refine World.read_write_of_ne w d' _ value fun heq => h ?_
    obtain ⟨rfl, hcell⟩ := Prod.mk.inj heq
    rw [Declaration.inputOf?, hx, inputCell_injective hcell]
    exact if_pos rfl

theorem read_stores_of_notMem (h : name ∉ ds.filterMap (Declaration.inputOf? d)) (w : World σ) :
    (ds.foldl Declaration.store w).read d (inputCell name) = w.read d (inputCell name) := by
  induction ds generalizing w with
  | nil => rfl
  | cons x ds ih =>
    rw [filterMap_cons_toList, List.mem_append, not_or, Option.mem_toList] at h
    rw [List.foldl_cons, ih h.2, read_store_of_ne h.1]

/-- The cell of an input symbol holds the value that the file declares. -/
theorem read_stores (hnodup : (ds.filterMap (Declaration.inputOf? d)).Nodup) {x : Declaration}
    (hx : x ∈ ds) {value : d.Value} (hvalue : x.input? = some ⟨d, name, value⟩) (w : World σ) :
    (ds.foldl Declaration.store w).read d (inputCell name) = value := by
  have hname : x.inputOf? d = some name := by
    rw [Declaration.inputOf?, hvalue]
    exact if_pos rfl
  induction ds generalizing w with
  | nil => cases hx
  | cons y ds ih =>
    rw [filterMap_cons_toList, List.nodup_append] at hnodup
    obtain ⟨-, hnodup, hne⟩ := hnodup
    rw [List.foldl_cons]
    rcases List.mem_cons.1 hx with rfl | hx
    · have hlast : name ∉ ds.filterMap (Declaration.inputOf? d) := fun hmem =>
        hne name (by simp [hname]) name hmem rfl
      rw [read_stores_of_notMem hlast, store_eq, hvalue]
      exact World.read_write_self _ _ _ _
    · exact ih hnodup hx _

end Values

/-! ### Lines -/

section Lines

variable {source : String} {ds : List Declaration} {known : Elements} {l : Line} {x : Declaration}
  {n w : String}

theorem ne_empty_of_mem_words (hl : l ∈ lines source) (hw : w ∈ l.words) : w ≠ "" := by
  rw [lines, scan_eq_linesOf] at hl
  obtain ⟨⟨text, number⟩, -, hline⟩ := List.mem_flatMap.1 hl
  obtain ⟨rfl, -⟩ := mem_lineOf hline
  obtain ⟨r, hr, rfl⟩ := List.mem_map.1 hw
  have hmem := (List.takeWhile_sublist _).subset hr
  have hne : r ≠ [] := by simpa using (List.mem_filter.1 hmem).2
  simpa [← String.toList_inj] using hne

/-- The enumeration that a declaration names is a word of its line. -/
theorem mem_words_of_enumeration? (h : l.Makes known x) (hn : x.enumeration? = some n) :
    n ∈ l.words := by
  obtain ⟨directive, words, hwords, h⟩ := h
  rw [hwords]
  cases h with
  | element | enumeratedInput | enumeratedOutput =>
    cases hn
    simp
  | inputParameter hp | behaviorParameter hp =>
    cases hp with
    | decimal | boolean => cases hn
    | enumerated =>
      cases hn
      simp
  | _ => cases hn

theorem eq_element_of_makes {enumeration element value : String}
    (hl : l.words = ["enum", enumeration, element, value]) (h : l.Makes known x) :
    ∃ v, x = .element enumeration element v := by
  cases (Line.makes_iff .element hl).1 h with
  | element => exact ⟨_, rfl⟩

/-- An element that is known was known or has been declared. -/
theorem value?_after_cases {enumeration element : String} {v : Int32}
    (h : (known.after ds).value? enumeration element = some v) :
    known.value? enumeration element = some v ∨ .element enumeration element v ∈ ds := by
  induction ds generalizing known with
  | nil => exact .inl h
  | cons x ds ih =>
    rcases ih h with hx | hds
    · cases x with
      | element enumeration' name v' =>
        rw [value?_extend_element] at hx
        split at hx
        · next hkey =>
          obtain ⟨rfl, rfl⟩ := hkey
          obtain rfl := Option.some_inj.1 hx
          exact .inr List.mem_cons_self
        · exact .inl hx
      | _ => exact .inl hx
    · exact .inr (List.mem_cons_of_mem _ hds)

end Lines

/-! ### Files that are registered -/

/-- **An environment is what declarations say**, each kind of name in the order of the file, and so
is the world. -/
structure Agrees (ds : List Declaration) (e : Environment σ) (w : World σ) : Prop where
  inputs : ∀ d, (e.symbols.inputs.get d).names = ds.filterMap (Declaration.inputOf? d)
  outputs : ∀ d, (e.symbols.outputs.get d).names = ds.filterMap (Declaration.outputOf? d)
  behaviors : e.behaviors.names = ds.filterMap Declaration.behavior?
  enumerations : e.symbols.enumerations.names =
    (ds.filterMap Declaration.enumeration?).eraseDups
  elements : ∀ n, e.elementsOf n = ds.filterMap (Declaration.elementOf? n)
  parameters : ∀ owner p, List.Forall₂ e.HasParameter ((e.parametersOf owner).get p).entries
    (parametersOf [] owner p ds)
  input : ∀ name enumeration value, .enumeratedInput name enumeration value ∈ ds →
    e.HasInput .enumerated name enumeration (.cell (inputCell name))
  output : ∀ name enumeration, .enumeratedOutput name enumeration ∈ ds →
    e.HasOutput .enumerated name enumeration (.cell (outputCell name))
  values : ∀ x ∈ ds, ∀ d name value, x.input? = some ⟨d, name, value⟩ →
    ∃ s, (e.symbols.inputs.get d).get? name = some s ∧ s.binding.read w = (value, w)

section Files

variable {source : String} {ds : List Declaration} {host : σ} {e : Environment σ} {w : World σ}

theorem declaresInputs_empty : DeclaresInputs [] (Draft.empty : Draft σ) := by
  intro d
  cases d <;> rfl

theorem exists_registration {above : List Declaration} {x : Declaration} (hx : x ∈ ds) :
    ∃ above', x.registration above' ∈ (registrations above ds : List (Registration σ)) := by
  induction ds generalizing above with
  | nil => cases hx
  | cons y ds ih =>
    rcases List.mem_cons.1 hx with rfl | hx
    · exact ⟨above, List.mem_cons_self⟩
    · obtain ⟨above', hmem⟩ := ih hx
      exact ⟨above', List.mem_cons_of_mem _ hmem⟩

theorem setUp_eq_ok (h : setUp ds host = .ok (e, w)) :
    (register ds : Registering σ Unit).runOn Draft.empty = (.ok (), e.toDraft) ∧
      w = ds.foldl Declaration.store ⟨Cells.empty, host⟩ := by
  unfold setUp at h
  split at h
  · next hregister =>
    cases h
    exact ⟨Registering.runOn_of_build hregister, rfl⟩
  · cases h

theorem agrees_of_setUp (h : setUp ds host = .ok (e, w)) : Agrees ds e w := by
  obtain ⟨hregister, rfl⟩ := setUp_eq_ok h
  have hall := performsAll_of_register declaresInputs_empty hregister
  have hreflects := hall.reflects
  have hinputs (d : Domain) :
      (e.symbols.inputs.get d).names = ds.filterMap (Declaration.inputOf? d) := by
    rw [hall.eq_append fun hr => hr.inputNames_eq d, declaresInputs_empty d,
      filterMap_registrations (g := Declaration.inputOf? d)
        fun above x => inputOf?_registration above x d]
    rfl
  exact {
    inputs := hinputs
    outputs d := by
      rw [hall.eq_append fun hr => hr.outputNames_eq d,
        filterMap_registrations (g := Declaration.outputOf? d) fun _ x => by cases x <;> rfl]
      cases d <;> rfl
    behaviors := by
      rw [hall.eq_append fun hr => hr.behaviorNames_eq,
        filterMap_registrations (g := Declaration.behavior?) fun _ x => by cases x <;> rfl]
      rfl
    enumerations := by
      rw [hall.enumerationNames_eq,
        filterMap_registrations (g := Declaration.enumeration?) fun _ x => by cases x <;> rfl]
      change [] ++ (List.removeAll _ []).eraseDups = _
      simp [List.removeAll]
    elements n := by
      rw [hreflects.elements,
        filterMap_registrations (g := Declaration.elementOf? n) fun _ x => by cases x <;> rfl]
    parameters owner p := filterMap_parameterOf? (σ := σ) owner p ▸ hreflects.parameters owner p
    input name enumeration value hx := by
      obtain ⟨_, hr⟩ := exists_registration (σ := σ) hx
      exact hreflects.hasInput hr
    output name enumeration hx := by
      obtain ⟨_, hr⟩ := exists_registration (σ := σ) hx
      exact hreflects.hasOutput hr
    values x hx d name value hvalue := by
      obtain ⟨above, hr⟩ := exists_registration (σ := σ) hx
      obtain ⟨enumeration, heq⟩ := registration_of_input? (σ := σ) above hvalue
      obtain ⟨s, hs, hbinding, -⟩ := hreflects.hasInput (heq ▸ hr)
      have hnodup : (ds.filterMap (Declaration.inputOf? d)).Nodup :=
        hinputs d ▸ (e.symbols.inputs.get d).nodup
      refine ⟨s, hs, ?_⟩
      rw [hbinding, InputBinding.read, read_stores hnodup hx hvalue] }

/-- What an enumeration gives its elements as values. -/
theorem elementValue?_of_mem {enumeration element : String} {v : Int32} {t : EnumId}
    (ht : e.Names .enumerated t enumeration) (h : (element, v) ∈ e.elementsOf enumeration) :
    e.symbols.elementValue? t element = some v := by
  obtain ⟨elements, helements⟩ := Registry.exists_entry ht
  have hget : e.symbols.enumerations.get? enumeration = some elements :=
    Registry.get?_eq_some_iff.2 (List.mem_of_getElem? helements)
  rw [Draft.elementsOf, hget] at h
  rw [Symbols.elementValue?_of_enumeration? helements]
  exact Registry.get?_eq_some_iff.2 h

/-- The element that the line of an enumerated input symbol names has the value of the symbol. -/
theorem value_of_line (h : parse source = .ok ds) (hagrees : Agrees ds e w) {l : Line}
    (hl : l ∈ lines source) {name enumeration element : String}
    (hwords : l.words = ["enumerated-input", name, enumeration, element]) :
    ∃ s v, (e.symbols.inputs.get .enumerated).get? name = some s ∧
      e.Names .enumerated s.typing enumeration ∧
      e.symbols.elementValue? s.typing element = some v ∧ s.binding.read w = (v, w) := by
  obtain ⟨i, hi⟩ := List.mem_iff_getElem?.1 hl
  obtain ⟨x, hx, hmakes⟩ := exists_makes h hi
  obtain ⟨_, _, _, v, heq, hvalue, rfl⟩ := (makes_enumeratedInput_iff hwords).1 hmakes
  cases heq
  have hmem := List.mem_of_getElem? hx
  obtain ⟨s, hs, -, htyping⟩ := hagrees.input _ _ _ hmem
  obtain ⟨s', hs', hread⟩ := hagrees.values _ hmem .enumerated _ _ rfl
  obtain rfl := Option.some_inj.1 (hs.symm.trans hs')
  refine ⟨s, v, hs, htyping, elementValue?_of_mem htyping ?_, hread⟩
  -- The reader of the file has taken the value from a line above.
  rcases value?_after_cases hvalue with hnone | habove
  · cases hnone
  · rw [hagrees.elements, List.mem_filterMap]
    exact ⟨_, List.mem_of_mem_take habove, if_pos rfl⟩

/-- An enumeration is named on a line. -/
theorem exists_line_of_mem (h : parse source = .ok ds) (hagrees : Agrees ds e w) {n : String}
    (hn : n ∈ e.symbols.enumerations.names) : n ≠ "" ∧ ∃ (i : Nat) (l : Line) (x : Declaration),
      (lines source)[i]? = some l ∧ ds[i]? = some x ∧ x.enumeration? = some n ∧ n ∈ l.words := by
  rw [hagrees.enumerations, List.mem_eraseDups, List.mem_filterMap] at hn
  obtain ⟨x, hx, hname⟩ := hn
  obtain ⟨i, hi, rfl⟩ := List.mem_iff_getElem.1 hx
  have hlength := length_of_declarations h
  have hline := List.getElem?_eq_getElem (l := lines source) (hlength ▸ hi)
  obtain ⟨x, hx, hmakes⟩ := exists_makes h hline
  obtain rfl := Option.some_inj.1 ((List.getElem?_eq_getElem hi).symm.trans hx)
  have hmem := mem_words_of_enumeration? hmakes hname
  exact ⟨ne_empty_of_mem_words (List.getElem_mem _) hmem, i, _, _, hline, hx, hname, hmem⟩

/-- No element is declared twice. -/
theorem elements_unique (h : parse source = .ok ds) (hagrees : Agrees ds e w) {i j : Nat}
    {l m : Line} {enumeration element v v' : String} (hij : i < j)
    (hl : (lines source)[i]? = some l) (hm : (lines source)[j]? = some m)
    (hlwords : l.words = ["enum", enumeration, element, v])
    (hmwords : m.words = ["enum", enumeration, element, v']) : False := by
  obtain ⟨x, hx, hxmakes⟩ := exists_makes h hl
  obtain ⟨y, hy, hymakes⟩ := exists_makes h hm
  obtain ⟨value, rfl⟩ := eq_element_of_makes hlwords hxmakes
  obtain ⟨value', rfl⟩ := eq_element_of_makes hmwords hymakes
  have hnodup := e.nodup_elementsOf enumeration
  rw [hagrees.elements, List.Nodup, List.pairwise_map, List.pairwise_filterMap,
    List.pairwise_iff_getElem] at hnodup
  obtain ⟨hi, hx⟩ := List.getElem?_eq_some_iff.1 hx
  obtain ⟨hj, hy⟩ := List.getElem?_eq_some_iff.1 hy
  exact hnodup i j hi hj hij (element, value) (hx ▸ if_pos rfl) (element, value')
    (hy ▸ if_pos rfl) rfl

/-- **What an environment file declares is what is registered.** -/
theorem setUp_agrees (h : parse source = .ok ds) (host : σ) :
    DeclaresInOrder source ds ∧
    (∀ e w, setUp ds host = .ok (e, w) → Agrees ds e w ∧
      (∀ l ∈ lines source, ∀ name enumeration element,
        l.words = ["enumerated-input", name, enumeration, element] →
        ∃ s v, (e.symbols.inputs.get .enumerated).get? name = some s ∧
          e.Names .enumerated s.typing enumeration ∧
          e.symbols.elementValue? s.typing element = some v ∧ s.binding.read w = (v, w)) ∧
      ∀ n ∈ e.symbols.enumerations.names, n ≠ "" ∧ ∃ (i : Nat) (l : Line) (x : Declaration),
        (lines source)[i]? = some l ∧ ds[i]? = some x ∧ x.enumeration? = some n ∧ n ∈ l.words) ∧
    (∀ (i j : Nat) l m enumeration element v v', i < j → (lines source)[i]? = some l →
      (lines source)[j]? = some m → l.words = ["enum", enumeration, element, v] →
      m.words = ["enum", enumeration, element, v'] → ∃ error, setUp ds host = .error error) := by
  refine ⟨declaresInOrder_of_parse h, fun e w hsetUp => ?_,
    fun i j l m enumeration element v v' hij hl hm hlwords hmwords => ?_⟩
  · have hagrees := agrees_of_setUp hsetUp
    exact ⟨hagrees, fun l hl name enumeration element => value_of_line h hagrees hl,
      fun n => exists_line_of_mem h hagrees⟩
  · cases hsetUp : setUp ds host with
    | error error => exact ⟨error, rfl⟩
    | ok result =>
      exact (elements_unique h (agrees_of_setUp hsetUp) hij hl hm hlwords hmwords).elim

/-- A file with a parameter of an input symbol and one of a behavior. -/
def soccer : String :=
  "enum role striker 0\nenum role keeper 1\nboolean-input ball.seen true\n" ++
    "enumerated-input game.role role keeper\ninput-parameter ball.seen b left\n" ++
    "basic-behavior kick\nbehavior-parameter kick e foot side\n"

/-- What the file declares. -/
def soccerDeclarations : List Declaration :=
  [.element "role" "striker" 0, .element "role" "keeper" 1, .booleanInput "ball.seen" true,
    .enumeratedInput "game.role" "role" 1, .inputParameter "ball.seen" ⟨.boolean, "left", none⟩,
    .behavior "kick", .behaviorParameter "kick" ⟨.enumerated, "foot", some "side"⟩]

theorem parse_soccer : parse soccer = .ok soccerDeclarations := by
  have hlines : lines soccer = [⟨1, ["enum", "role", "striker", "0"]⟩,
      ⟨2, ["enum", "role", "keeper", "1"]⟩, ⟨3, ["boolean-input", "ball.seen", "true"]⟩,
      ⟨4, ["enumerated-input", "game.role", "role", "keeper"]⟩,
      ⟨5, ["input-parameter", "ball.seen", "b", "left"]⟩, ⟨6, ["basic-behavior", "kick"]⟩,
      ⟨7, ["behavior-parameter", "kick", "e", "foot", "side"]⟩] := by decide +kernel
  rw [parse, hlines]
  rfl

/-- The file is registered; with an element that is declared again, it is not. -/
theorem setUp_agrees_soccer :
    (∃ e w, setUp soccerDeclarations () = .ok (e, w) ∧ Agrees soccerDeclarations e w ∧
      e.symbols.enumerations.names = ["role", "side"] ∧
      e.elementsOf "role" = [("striker", 0), ("keeper", 1)]) ∧
    parse (firstLines 4 roles) = .ok [.element "role" "striker" 0, .element "role" "striker" 1,
      .enumeratedInput "game.role" "role" 1] ∧
    ∃ error, setUp [.element "role" "striker" 0, .element "role" "striker" 1,
      .enumeratedInput "game.role" "role" 1] () = .error error := by
  have hok : (setUp soccerDeclarations ()).isOk = true := by decide +kernel
  have hroles : parse (firstLines 4 roles) = .ok [.element "role" "striker" 0,
      .element "role" "striker" 1, .enumeratedInput "game.role" "role" 1] := by
    rw [parse, lines_firstLines, lines_roles]
    rfl
  refine ⟨?_, hroles, ?_⟩
  · obtain ⟨⟨e, w⟩, hsetUp⟩ : ∃ result, setUp soccerDeclarations () = .ok result := by
      cases h : setUp soccerDeclarations () with
      | error error => rw [h] at hok; cases hok
      | ok result => exact ⟨result, rfl⟩
    have hagrees := ((setUp_agrees parse_soccer ()).2.1 e w hsetUp).1
    exact ⟨e, w, hsetUp, hagrees, hagrees.enumerations.trans (by decide +kernel),
      hagrees.elements "role"⟩
  · have hlines : lines (firstLines 4 roles) = [⟨1, ["enum", "role", "striker", "0"]⟩,
        ⟨3, ["enum", "role", "striker", "1"]⟩,
        ⟨4, ["enumerated-input", "game.role", "role", "striker"]⟩] := by
      rw [lines_firstLines, lines_roles]
      rfl
    exact (setUp_agrees hroles ()).2.2 0 1 _ _ "role" "striker" "0" "1" Nat.zero_lt_one
      (by rw [hlines]; rfl) (by rw [hlines]; rfl) rfl rfl

end Files

end EnvironmentFile

end BehaviorEngine
