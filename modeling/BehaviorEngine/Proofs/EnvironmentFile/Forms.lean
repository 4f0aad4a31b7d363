import BehaviorEngine.EnvironmentFile.Declaration

/-!
What a line declares, without a reader: each directive has forms of the words behind it. A line
makes a declaration if and only if it has the form of that declaration. One form only needs the
elements that are known.
-/

namespace BehaviorEngine

namespace EnvironmentFile

/-- The words that declare a parameter. -/
inductive DeclaresParameter : List String → ParameterDeclaration → Prop
  | decimal {name} : DeclaresParameter ["d", name] ⟨.decimal, name, none⟩
  | boolean {name} : DeclaresParameter ["b", name] ⟨.boolean, name, none⟩
  | enumerated {name enumeration} :
    DeclaresParameter ["e", name, enumeration] ⟨.enumerated, name, some enumeration⟩

/-- A directive makes a declaration with the words behind it, where some elements are known. -/
inductive Makes (known : Elements) : Directive → List String → Declaration → Prop
  | element {enumeration name value v} (h : readElementValue? value = some v) :
    Makes known .element [enumeration, name, value] (.element enumeration name v)
  | decimalInput {name value v} (h : readDecimal? value = some v) :
    Makes known .decimalInput [name, value] (.decimalInput name v)
  | booleanInput {name value v} (h : readTruth? value = some v) :
    Makes known .booleanInput [name, value] (.booleanInput name v)
  | enumeratedInput {name enumeration element v}
    (h : known.value? enumeration element = some v) :
    Makes known .enumeratedInput [name, enumeration, element] (.enumeratedInput name enumeration v)
  | decimalOutput {name} : Makes known .decimalOutput [name] (.decimalOutput name)
  | booleanOutput {name} : Makes known .booleanOutput [name] (.booleanOutput name)
  | enumeratedOutput {name enumeration} :
    Makes known .enumeratedOutput [name, enumeration] (.enumeratedOutput name enumeration)
  | inputParameter {symbol words p} (h : DeclaresParameter words p) :
    Makes known .inputParameter (symbol :: words) (.inputParameter symbol p)
  | behavior {name} : Makes known .behavior [name] (.behavior name)
  | behaviorParameter {behavior words p} (h : DeclaresParameter words p) :
    Makes known .behaviorParameter (behavior :: words) (.behaviorParameter behavior p)

/-- A line makes a declaration, where some elements are known. -/
def Line.Makes (known : Elements) (l : Line) (d : Declaration) : Prop :=
  ∃ directive words, l.words = directive.word :: words ∧
    EnvironmentFile.Makes known directive words d

variable {known : Elements} {words : List String} {directive : Directive}
  {p : ParameterDeclaration} {d : Declaration} {l : Line} {e : FileError}

section Results

variable {α β ε ε' : Type} {x : Except ε α}

theorem mapError_eq_error {f : ε → ε'} {b : ε'} (h : x.mapError f = .error b) :
    ∃ a, x = .error a ∧ f a = b := by
  cases x with
  | error a => exact ⟨a, rfl, Except.error.inj h⟩
  | ok c => cases h

theorem mapError_eq_ok {f : ε → ε'} {a : α} : x.mapError f = .ok a ↔ x = .ok a := by
  cases x with
  | error e => constructor <;> intro h <;> cases h
  | ok c =>
    constructor <;>
    · intro h
      cases h
      rfl

theorem bind_eq_ok {f : α → Except ε β} {b : β} :
    x >>= f = .ok b ↔ ∃ a, x = .ok a ∧ f a = .ok b := by
  cases x <;> simp [bind, Except.bind]

theorem valueOr_eq_ok {what found : String} {read : String → Option α} {a : α} :
    valueOr what found read = .ok a ↔ read found = some a := by
  cases h : read found <;> simp [valueOr, h]

end Results

theorem Directive.ofWord?_word (directive : Directive) :
    Directive.ofWord? directive.word = some directive := by
  cases directive <;> decide

theorem Directive.word_injective {a b : Directive} (h : a.word = b.word) : a = b := by
  rw [← Option.some_inj, ← ofWord?_word, ← ofWord?_word, h]

theorem Directive.word_of_ofWord? {word : String} (h : Directive.ofWord? word = some directive) :
    directive.word = word := by
  simpa using List.find?_some h

/-- What a line makes is what its first word makes of the others. -/
theorem Line.makes_iff (directive : Directive) (h : l.words = directive.word :: words) :
    l.Makes known d ↔ EnvironmentFile.Makes known directive words d := by
  constructor
  · rintro ⟨directive', words', hwords, hd⟩
    obtain ⟨hdirective, rfl⟩ := List.cons.inj (h.symm.trans hwords)
    obtain rfl := Directive.word_injective hdirective
    exact hd
  · exact fun hd => ⟨directive, words, h, hd⟩

theorem line_of_declaration_error (h : l.declaration known = .error e) : e.line = l.number := by
  obtain ⟨problem, -, rfl⟩ := mapError_eq_error h
  rfl

theorem parameter_eq_ok_iff : parameter words = .ok p ↔ DeclaresParameter words p := by
  constructor
  · intro h
    unfold parameter at h
    split at h <;> cases h <;> constructor
  · rintro (_ | _ | _) <;> rfl

theorem declaration_eq_ok_iff :
    EnvironmentFile.declaration known directive words = .ok d ↔ Makes known directive words d := by
  constructor
  · intro h
    unfold EnvironmentFile.declaration at h
    split at h
    -- The values of these are read, the words of the others are taken as they stand.
    case h_1 | h_2 | h_3 | h_8 | h_10 =>
      simp only [bind_eq_ok, valueOr_eq_ok, parameter_eq_ok_iff] at h
      obtain ⟨v, hv, h⟩ := h
      cases h
      constructor
      exact hv
    case h_4 =>
      split at h <;> cases h
      constructor
      assumption
    case h_5 | h_6 | h_7 | h_9 =>
      cases h
      constructor
    case h_11 => cases h
  · intro h
    cases h with
    | element h | decimalInput h | booleanInput h =>
      simp only [EnvironmentFile.declaration, bind_eq_ok, valueOr_eq_ok]
      exact ⟨_, h, rfl⟩
    | enumeratedInput h => simp only [EnvironmentFile.declaration, h]
    | inputParameter h | behaviorParameter h =>
      cases h <;> rfl
    | decimalOutput | booleanOutput | enumeratedOutput | behavior => rfl

/-- **A line makes a declaration if and only if it has the form of that declaration.** -/
theorem Line.declaration_eq_ok_iff : l.declaration known = .ok d ↔ l.Makes known d := by
  obtain ⟨number, words⟩ := l
  rw [Line.declaration, mapError_eq_ok]
  constructor
  · intro h
    split at h
    · cases h
    · next word words hwords =>
      split at h
      · next directive hword =>
        exact ⟨directive, words, by rw [hwords, Directive.word_of_ofWord? hword],
          EnvironmentFile.declaration_eq_ok_iff.1 h⟩
      · cases h
  · rintro ⟨directive, words, rfl, h⟩
    simp only [Directive.ofWord?_word]
    exact EnvironmentFile.declaration_eq_ok_iff.2 h

end EnvironmentFile

end BehaviorEngine
