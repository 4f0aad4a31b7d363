import BehaviorEngine.Proofs.Grammar.Meaning
import BehaviorEngine.Proofs.Grammar.Reading

/-!
The language of expressions. The construction of an expression nested at most `n` levels deep reads
the expressions of the grammar that are nested at most `n` levels deep, and gives what they denote.
Main statement: `reads_expression`, by induction on the levels that are left; a level takes one tag
and is settled by the form that the tag stands for.
-/

namespace BehaviorEngine

/-! ### Scopes -/

/-- What the names of a scope stand for. -/
def Scope.context {σ : Type} (s : Scope σ) : Grammar.Context σ where
  symbols := s.symbols
  behaviors := s.behaviors
  options := s.options.map (·.parameters)
  parameters := s.parameters
  states := s.states.names

namespace Grammar

open Construct

/-! ### Tags -/

/-- The tags of constants. -/
def literalTags : Domain → List String
  | .decimal => ["v", "c"]
  | .boolean => ["v"]
  | .enumerated => ["v"]

/-- The tags that stand for a form of expressions. -/
def tags : {d : Domain} → Expr.Form d → List String
  | d, .literal => literalTags d
  | _, .parameter => ["p"]
  | _, .input => ["i"]
  | _, .output => ["o"]
  | _, .choice => ["q"]
  | _, .arithmetic op => [arithmeticTag op]
  | _, .stateTime => ["s"]
  | _, .optionTime => ["t"]
  | _, .connective op => [connectiveTag op]
  | _, .not => ["!"]
  | _, .relation op => [relationTag op]
  | _, .sameElement => ["c"]
  | _, .reachedTarget => ["t"]

/-- The form of an expression. -/
def Term.form : {d : Domain} → Term d → Expr.Form d
  | _, .literal _ => .literal
  | _, .constant _ => .literal
  | _, .parameter _ => .parameter
  | _, .input _ _ _ => .input
  | _, .output _ => .output
  | _, .choice _ _ _ => .choice
  | _, .arithmetic op _ _ => .arithmetic op
  | _, .stateTime => .stateTime
  | _, .optionTime => .optionTime
  | _, .connective op _ _ => .connective op
  | _, .not _ => .not
  | _, .relation op _ _ => .relation op
  | _, .sameElement _ _ => .sameElement
  | _, .reachedTarget => .reachedTarget

theorem tag?_bind_eq_some_iff {α : Type} {w : Word} {f : Char → Option α} {x : α} :
    w.tag?.bind f = some x ↔ ∃ c, w.text = String.ofList [c] ∧ f c = some x := by
  unfold Word.tag?
  constructor
  · intro h
    split at h
    · next c hc => exact ⟨c, by rw [← hc, String.ofList_toList], h⟩
    · cases h
  · rintro ⟨c, hc, h⟩
    simp [hc, h]

theorem domain_ofTag?_iff {w : Word} {d : Domain} :
    w.tag?.bind Domain.ofTag? = some d ↔ w.text = domainTag d := by
  rw [tag?_bind_eq_some_iff]
  constructor
  · rintro ⟨c, hc, h⟩
    unfold Domain.ofTag? at h
    split at h <;> cases h <;> exact hc
  · intro h
    cases d <;> exact ⟨_, h, rfl⟩

theorem domainTag_injective : Function.Injective domainTag := by
  intro d e
  cases d <;> cases e <;> decide

theorem form_ofTag?_iff {w : Word} {d : Domain} {form : Expr.Form d} :
    w.tag?.bind (Expr.Form.ofTag? d) = some form ↔ w.text ∈ tags form := by
  rw [tag?_bind_eq_some_iff]
  constructor
  · rintro ⟨c, hc, h⟩
    rw [hc]
    cases d
    · simp only [Expr.Form.ofTag?, Expr.Form.ofDecimalTag?] at h
      split at h <;> cases h <;> decide
    · simp only [Expr.Form.ofTag?, Expr.Form.ofBooleanTag?] at h
      split at h <;> cases h <;> decide
    · simp only [Expr.Form.ofTag?, Expr.Form.ofEnumeratedTag?] at h
      split at h <;> cases h <;> decide
  · intro h
    cases form with
    | literal =>
      cases d
      · simp only [tags, literalTags, List.mem_cons, List.not_mem_nil, or_false] at h
        rcases h with h | h
        · exact ⟨'v', h, rfl⟩
        · exact ⟨'c', h, rfl⟩
      · exact ⟨'v', List.mem_singleton.1 h, rfl⟩
      · exact ⟨'v', List.mem_singleton.1 h, rfl⟩
    | parameter | input | output | choice =>
      cases d <;> exact ⟨_, List.mem_singleton.1 h, rfl⟩
    | arithmetic op | relation op | connective op =>
      cases op <;> exact ⟨_, List.mem_singleton.1 h, rfl⟩
    | stateTime | optionTime | not | sameElement | reachedTarget =>
      exact ⟨_, List.mem_singleton.1 h, rfl⟩

theorem form_eq_of_words {d : Domain} {t : Term d} {w : Word} {us : List String}
    (h : t.words = w.text :: us) : w.tag?.bind (Expr.Form.ofTag? d) = some t.form := by
  rw [form_ofTag?_iff]
  cases t with
  | literal value =>
    cases d <;> simp [tags, literalTags, Term.form, ← (List.cons.inj h).1]
  | constant _
  | parameter _
  | input _ _ _
  | output _
  | choice _ _ _
  | arithmetic _ _ _
  | stateTime
  | optionTime
  | connective _ _ _
  | not _
  | relation _ _ _
  | sameElement _ _
  | reachedTarget =>
    have h := (List.cons.inj h).1
    simp [tags, literalTags, Term.form, ← h]

/-! ### Call sites -/

/-- The expressions of a domain that are nested at most `n` levels deep, and what they denote. -/
def Phrase {σ : Type} (c : Context σ) (n : Nat) {d : Domain} (expected : Option d.Typing)
    (ts : List String) (e : Expr d) : Prop :=
  ∃ t : Term d, t.words = ts ∧ t.depth ≤ n ∧ t.Denotes c expected e

section

variable {σ slot : Type} {c : Context σ} {n : Nat} {inner : ExprReader}
  (hinner : ∀ d expected, Reads id (inner d expected) (Phrase c n expected))

theorem isBound_iff {bound : List Binding} {d : Domain} {i : Nat} :
    (bound.any fun b => decide (b.domain = d ∧ b.index = i)) = true ↔
      (d, i) ∈ bound.map Binding.key := by
  simp [Binding.key, List.any_eq_true]

include hinner in
theorem reads_binding (target : Parameters slot) (owner : String) (bound : List Binding) :
    Reads id (binding inner target owner bound)
      (fun ts b => ∃ a : Assignment, a.words = ts ∧ (a.depth ≤ n ∧ a.Denotes c target b) ∧
        b.key ∉ bound.map Binding.key) := by
  unfold binding
  refine Reads.congr (Reads.word_bind (fun _ _ _ => rfl) fun tag =>
    Reads.word_bind (N := fun name vs b =>
    ∃ d i p, tag.text = domainTag d ∧ (target.get d).entries[i]? = some (name.text, p) ∧
    (d, i) ∉ bound.map Binding.key ∧ ∃ e, Phrase c n (some p.typing) vs e ∧ b = Binding.mk d i e)
    (fun _ _ _ => rfl) fun name => ?_) ?_
  · cases hd : tag.tag?.bind Domain.ofTag? with
    | none =>
      refine (Reads.fail id _ _).congr fun ts b => ?_
      constructor
      · exact False.elim
      · rintro ⟨d, i, p, htag, -⟩
        rw [← domain_ofTag?_iff, hd] at htag
        cases htag
    | some d =>
      rw [domain_ofTag?_iff] at hd
      refine (Reads.resolve_bind fun i p => Reads.guard fun _ =>
        ((hinner d (some p.typing)).within _ _).seq_pure (Binding.mk d i)).congr fun ts b => ?_
      constructor
      · rintro ⟨i, p, hp, hi, e, he, rfl⟩
        exact ⟨d, i, p, hd, hp, mt isBound_iff.2 hi, e, he, rfl⟩
      · rintro ⟨d', i, p, hd', hp, hi, e, he, rfl⟩
        obtain rfl := domainTag_injective (hd.symm.trans hd')
        exact ⟨i, p, hp, mt isBound_iff.1 hi, e, he, rfl⟩
  · intro ts b
    constructor
    · rintro ⟨_, _, rfl, name, _, rfl, d, i, p, rfl, hp, hi, e, ⟨t, rfl, hn, ht⟩, rfl⟩
      exact ⟨.mk d name t, rfl, ⟨hn, .mk hp ht⟩, hi⟩
    · rintro ⟨_, rfl, ⟨hn, ⟨hp, ht⟩⟩, hi⟩
      exact ⟨_, _, rfl, _, _, rfl, _, _, _, rfl, hp, hi, _, ⟨_, rfl, hn, ht⟩, rfl⟩

theorem firstUnbound_eq_none {target : Parameters slot} {bs : List Binding} :
    Domain.all.findSome? (firstUnbound? target bs) = none ↔
      ∀ d i, i < (target.get d).size → (d, i) ∈ bs.map Binding.key := by
  have hd : ∀ d, firstUnbound? target bs d = none ↔
      ∀ i, i < (target.get d).size → (d, i) ∈ bs.map Binding.key := by
    intro d
    unfold firstUnbound?
    rw [Option.map_eq_none_iff, List.find?_eq_none]
    constructor
    · intro h i hi
      rw [← Registry.names_length] at hi
      have := h ((target.get d).names[i], i) (List.mk_mem_zipIdx_iff_getElem?.2 (by simp [hi]))
      simpa only [Bool.not_eq_true', Bool.not_eq_false, isBound_iff] using this
    · rintro h ⟨name, i⟩ hi
      obtain ⟨hlt, -⟩ := List.getElem?_eq_some_iff.1 (List.mk_mem_zipIdx_iff_getElem?.1 hi)
      rw [Registry.names_length] at hlt
      simpa only [Bool.not_eq_true', Bool.not_eq_false, isBound_iff] using h i hlt
  rw [List.findSome?_eq_none_iff]
  exact ⟨fun h d => (hd d).1 (h d (Domain.mem_all d)), fun h d _ => (hd d).2 (h d)⟩

include hinner in
/-- A call site: a count, and as many bindings, one for each parameter of the target. -/
theorem reads_arguments (target : Parameters slot) (owner : String) :
    Reads id (arguments inner target owner)
      (fun ts bs => ∃ t as, ts = t :: as.flatMap Assignment.words ∧
        Assignment.allDepth as ≤ n ∧ ∃ bindings, Call c target t as bindings ∧
        bs = Binding.arrange bindings) := by
  have hstep : ∀ bound : List Binding, Reads id
      (do Pure.pure (bound ++ [← binding inner target owner bound]))
      (fun ts bs => ∃ a, Assignment.words a = ts ∧ ∃ b, bs = id bound ++ [b] ∧
        (a.depth ≤ n ∧ a.Denotes c target b) ∧ b.key ∉ (id bound).map Binding.key) := by
    intro bound
    refine ((reads_binding hinner target owner bound).seq_pure fun b => bound ++ [b]).congr
      fun ts bs => ?_
    constructor
    · rintro ⟨b, ⟨a, ha, h, hb⟩, rfl⟩
      exact ⟨a, ha, b, rfl, h, hb⟩
    · rintro ⟨a, ha, b, rfl, h, hb⟩
      exact ⟨b, ⟨a, ha, h, hb⟩, rfl⟩
  unfold arguments
  refine (Reads.count_bind fun n span => (Reads.iterate_distinct hstep n rfl).seq
    (N := fun bs ts bs' => ts = [] ∧
      (∀ d i, i < (target.get d).size → (d, i) ∈ bs.map Binding.key) ∧ bs' = Binding.arrange bs)
    fun bs => ?_).congr fun ts bs => ?_
  · simp only [← firstUnbound_eq_none]
    split
    · next h => exact (Reads.fail id _ _).congr (by simp [h])
    · next h => exact (Reads.pure id _).congr (by simp [h])
  constructor
  · rintro ⟨t, _, _, rfl, ht, _, _, bs, rfl, ⟨as, rfl, rfl, has, hnd⟩, rfl, hall, rfl⟩
    rw [List.forall₂_and_left] at has
    exact ⟨t, as, by simp, Assignment.allDepth_le.2 has.1, bs,
      ⟨ht, Assignment.allDenote_iff.2 has.2, hnd, hall⟩, rfl⟩
  · rintro ⟨t, as, rfl, hn, bs, ⟨ht, has, hnd, hall⟩, rfl⟩
    exact ⟨t, _, _, rfl, ht, _, [], bs, by simp, ⟨as, rfl, rfl, (List.forall₂_and_left _ _).2
      ⟨Assignment.allDepth_le.1 hn, Assignment.allDenote_iff.1 has⟩, hnd⟩, rfl, hall, rfl⟩

/-! ### Forms -/

theorem reads_agree_bind {α : Type} (symbols : Symbols σ) (name : Word) {d : Domain}
    {expected : Option d.Typing} {found : d.Typing} {x : PUnit → Construct α}
    {L : List String → α → Prop} (h : Reads id (x ⟨⟩) L) :
    Reads id (agree symbols name d expected found >>= x)
      (fun ts a => Agrees expected found ∧ L ts a) := by
  have hyes (ha : Agrees expected found) :
      Reads id (x ⟨⟩) (fun ts a => Agrees expected found ∧ L ts a) := h.congr (by simp [ha])
  cases d with
  | decimal | boolean => exact hyes (by simp [Agrees])
  | enumerated =>
    cases expected with
    | none => exact hyes (by simp [Agrees])
    | some t =>
      by_cases ht : t = found
      · simp only [agree, if_pos ht]
        exact hyes (by simp [Agrees, ht])
      · refine (Reads.of_error fun c => ?_).congr (L := fun _ _ => False) (by simp [Agrees, ht])
        simp only [agree, if_neg ht, enumerationOf]
        -- One of the enumerations may be missing, which is an error as well.
        cases symbols.enumeration? t with
        | none => exact ⟨_, c, rfl⟩
        | some _ =>
          cases symbols.enumeration? found with
          | none | some _ => exact ⟨_, c, rfl⟩

end

section

variable {σ : Type} {scope : Scope σ} {n : Nat} {inner : ExprReader} {tag : Word}
  (hinner : ∀ d expected, Reads id (inner d expected) (Phrase scope.context n expected))

/-- The tag tells the form of an expression that begins with it. -/
theorem form_eq_of_tag {d : Domain} {form : Expr.Form d} {t : Term d} {us : List String}
    (htag : tag.text ∈ tags form) (h : t.words = tag.text :: us) : t.form = form := by
  rw [← form_ofTag?_iff, form_eq_of_words h] at htag
  exact Option.some.inj htag

theorem reads_decimal (expected : Option Unit)
    (htag : tag.text ∈ tags (.literal : Expr.Form .decimal)) :
    Reads id (formed scope inner tag (d := .decimal) expected .literal)
      (fun us e => Phrase scope.context (n + 1) expected (tag.text :: us) e) := by
  refine (Reads.value.seq_pure (Expr.literal (d := .decimal) ())).congr fun us e => ?_
  constructor
  · rintro ⟨x, ⟨value, rfl, hx, hf⟩, rfl⟩
    simp only [tags, literalTags, List.mem_cons, List.not_mem_nil, or_false] at htag
    rcases htag with h | h
    · exact ⟨.literal value, by rw [h]; rfl, by simp [Term.depth], .decimal hx hf⟩
    · exact ⟨.constant value, by rw [h]; rfl, by simp [Term.depth], .constant hx hf⟩
  · rintro ⟨t, hw, -, ht⟩
    have hform := form_eq_of_tag htag hw
    cases ht with
    | decimal hx hf =>
      obtain ⟨-, rfl⟩ := List.cons.inj hw
      exact ⟨_, ⟨_, rfl, hx, hf⟩, rfl⟩
    | constant hx hf =>
      obtain ⟨-, rfl⟩ := List.cons.inj hw
      exact ⟨_, ⟨_, rfl, hx, hf⟩, rfl⟩
    | _ => cases hform

theorem reads_truth (expected : Option Unit)
    (htag : tag.text ∈ tags (.literal : Expr.Form .boolean)) :
    Reads id (formed scope inner tag (d := .boolean) expected .literal)
      (fun us e => Phrase scope.context (n + 1) expected (tag.text :: us) e) := by
  refine (Reads.truth.seq_pure (Expr.literal (d := .boolean) ())).congr fun us e => ?_
  constructor
  · rintro ⟨x, rfl, rfl⟩
    rw [List.mem_singleton.1 htag]
    cases x with
    | false => exact ⟨_, rfl, by simp [Term.depth], .no⟩
    | true => exact ⟨_, rfl, by simp [Term.depth], .yes⟩
  · rintro ⟨t, hw, -, ht⟩
    have hform := form_eq_of_tag htag hw
    cases ht with
    | yes =>
      obtain ⟨-, rfl⟩ := List.cons.inj hw
      exact ⟨true, rfl, rfl⟩
    | no =>
      obtain ⟨-, rfl⟩ := List.cons.inj hw
      exact ⟨false, rfl, rfl⟩
    | _ => cases hform

/-- An element can only be read if it is known to which enumeration it belongs. -/
theorem reads_element (expected : Option EnumId)
    (htag : tag.text ∈ tags (.literal : Expr.Form .enumerated)) :
    Reads id (formed scope inner tag (d := .enumerated) expected .literal)
      (fun us e => Phrase scope.context (n + 1) expected (tag.text :: us) e) := by
  refine (Reads.word_bind (N := fun element us e => us = [] ∧ ∃ id x, expected = some id ∧
    scope.symbols.elementValue? id element.text = some x ∧ e = Expr.literal id x)
    (fun _ _ _ => rfl) fun element => ?_).congr fun us e => ?_
  · cases expected with
    | none => exact (Reads.fail id _ _).congr (by simp)
    | some id' =>
      cases hid : scope.symbols.enumeration? id' with
      | none =>
        simp only [enumerationOf, hid]
        exact (Reads.fail id _ _).congr (by simp [Symbols.elementValue?, hid])
      | some found =>
        obtain ⟨name, elements⟩ := found
        simp only [enumerationOf, hid, pure_bind]
        cases hx : elements.get? element.text with
        | none => exact (Reads.fail id _ _).congr (by simp [Symbols.elementValue?, hid, hx])
        | some x => exact (Reads.pure id _).congr (by simp [Symbols.elementValue?, hid, hx])
  · constructor
    · rintro ⟨value, _, rfl, rfl, id, x, rfl, hx, rfl⟩
      rw [List.mem_singleton.1 htag]
      exact ⟨.literal value, rfl, by simp [Term.depth], .element hx⟩
    · rintro ⟨t, hw, -, ht⟩
      have hform := form_eq_of_tag htag hw
      cases ht with
      | element hx =>
        obtain ⟨-, rfl⟩ := List.cons.inj hw
        exact ⟨_, [], rfl, rfl, _, _, rfl, hx, rfl⟩
      | _ => cases hform

theorem reads_literal {d : Domain} (expected : Option d.Typing)
    (htag : tag.text ∈ tags (.literal : Expr.Form d)) :
    Reads id (formed scope inner tag expected (.literal : Expr.Form d))
      (fun us e => Phrase scope.context (n + 1) expected (tag.text :: us) e) := by
  cases d with
  | decimal => exact reads_decimal expected htag
  | boolean => exact reads_truth expected htag
  | enumerated => exact reads_element expected htag

theorem reads_parameter {d : Domain} (expected : Option d.Typing)
    (htag : tag.text ∈ tags (.parameter : Expr.Form d)) :
    Reads id (formed scope inner tag expected (.parameter : Expr.Form d))
      (fun us e => Phrase scope.context (n + 1) expected (tag.text :: us) e) := by
  refine (Reads.word_bind (fun _ _ _ => rfl) fun name => Reads.resolve_bind fun i p =>
    reads_agree_bind scope.symbols name (Reads.pure id (Expr.parameter p.typing i))).congr
    fun us e => ?_
  constructor
  · rintro ⟨name, _, rfl, i, p, hp, ht, rfl, rfl⟩
    rw [List.mem_singleton.1 htag]
    exact ⟨.parameter name, rfl, by simp [Term.depth], .parameter hp ht⟩
  · rintro ⟨t, hw, -, ht⟩
    have hform := form_eq_of_tag htag hw
    cases ht with
    | parameter hp ht =>
      obtain ⟨-, rfl⟩ := List.cons.inj hw
      exact ⟨_, [], rfl, _, _, hp, ht, rfl, rfl⟩
    | _ => cases hform

theorem reads_output {d : Domain} (expected : Option d.Typing)
    (htag : tag.text ∈ tags (.output : Expr.Form d)) :
    Reads id (formed scope inner tag expected (.output : Expr.Form d))
      (fun us e => Phrase scope.context (n + 1) expected (tag.text :: us) e) := by
  refine (Reads.word_bind (fun _ _ _ => rfl) fun name => Reads.resolve_bind fun i s =>
    reads_agree_bind scope.symbols name (Reads.pure id (Expr.output s.typing i))).congr
    fun us e => ?_
  constructor
  · rintro ⟨name, _, rfl, i, s, hs, ht, rfl, rfl⟩
    rw [List.mem_singleton.1 htag]
    exact ⟨.output name, rfl, by simp [Term.depth], .output hs ht⟩
  · rintro ⟨t, hw, -, ht⟩
    have hform := form_eq_of_tag htag hw
    cases ht with
    | output hs ht =>
      obtain ⟨-, rfl⟩ := List.cons.inj hw
      exact ⟨_, [], rfl, _, _, hs, ht, rfl, rfl⟩
    | _ => cases hform

include hinner in
theorem reads_input {d : Domain} (expected : Option d.Typing)
    (htag : tag.text ∈ tags (.input : Expr.Form d)) :
    Reads id (formed scope inner tag expected (.input : Expr.Form d))
      (fun us e => Phrase scope.context (n + 1) expected (tag.text :: us) e) := by
  refine (Reads.word_bind (fun _ _ _ => rfl) fun name => Reads.resolve_bind fun i s =>
    reads_agree_bind scope.symbols name ((reads_arguments hinner s.parameters name.text).seq_pure
      (Expr.input s.typing i))).congr fun us e => ?_
  constructor
  · rintro ⟨name, _, rfl, i, s, hs, ht, _, ⟨count, as, rfl, hn, bs, hb, rfl⟩, rfl⟩
    rw [List.mem_singleton.1 htag]
    refine ⟨.input name count as, ?_, ?_, .input hs ht hb.count hb.arguments hb.once⟩
    · rw [Term.words, Assignment.allWords_eq]
    · rw [Term.depth]; omega
  · rintro ⟨t, hw, hn, ht⟩
    have hform := form_eq_of_tag htag hw
    cases ht with
    | input hs ht hc ha hb =>
      rw [Term.words, Assignment.allWords_eq] at hw
      rw [Term.depth] at hn
      obtain ⟨-, rfl⟩ := List.cons.inj hw
      exact ⟨_, _, rfl, _, _, hs, ht, _, ⟨_, _, rfl, by omega, _, ⟨hc, ha, hb⟩, rfl⟩, rfl⟩
    | _ => cases hform

include hinner in
theorem reads_choice {d : Domain} (expected : Option d.Typing)
    (htag : tag.text ∈ tags (.choice : Expr.Form d)) :
    Reads id (formed scope inner tag expected (.choice : Expr.Form d))
      (fun us e => Phrase scope.context (n + 1) expected (tag.text :: us) e) := by
  refine ((hinner .boolean none).seq fun condition => (hinner d expected).seq fun yes =>
    (hinner d (some yes.typing)).seq_pure (Expr.choice condition yes)).congr fun us e => ?_
  constructor
  · rintro ⟨_, _, condition, rfl, ⟨tc, rfl, hc, hdc⟩, _, _, yes, rfl, ⟨ty, rfl, hy, hdy⟩, no,
      ⟨tn, rfl, hn, hdn⟩, rfl⟩
    rw [List.mem_singleton.1 htag]
    refine ⟨.choice tc ty tn, rfl, ?_, .choice hdc hdy hdn⟩
    rw [Term.depth]; omega
  · rintro ⟨t, hw, hn, ht⟩
    have hform := form_eq_of_tag htag hw
    cases ht with
    | choice hdc hdy hdn =>
      rw [Term.depth] at hn
      obtain ⟨-, rfl⟩ := List.cons.inj hw
      exact ⟨_, _, _, rfl, ⟨_, rfl, by omega, hdc⟩, _, _, _, rfl, ⟨_, rfl, by omega, hdy⟩, _,
        ⟨_, rfl, by omega, hdn⟩, rfl⟩
    | _ => cases hform

/-- An expression that is a tag and nothing else. -/
theorem reads_leaf {d : Domain} {expected : Option d.Typing} {t : Term d} {e : Expr d}
    (htag : tag.text ∈ tags t.form) (hw : t.words = [tag.text]) (hn : t.depth = 1)
    (ht : ∀ t' e', t'.form = t.form → (t'.Denotes scope.context expected e' ↔ t' = t ∧ e' = e)) :
    Reads id (Pure.pure e)
      (fun us e => Phrase scope.context (n + 1) expected (tag.text :: us) e) := by
  refine (Reads.pure id e).congr fun us e' => ?_
  constructor
  · rintro ⟨rfl, rfl⟩
    exact ⟨t, hw, by omega, (ht t _ rfl).2 ⟨rfl, rfl⟩⟩
  · rintro ⟨t', hw', -, ht'⟩
    obtain ⟨rfl, rfl⟩ := (ht t' e' (form_eq_of_tag htag hw')).1 ht'
    exact ⟨(List.cons.inj (hw'.symm.trans hw)).2, rfl⟩

theorem reads_stateTime (expected : Option Unit) (htag : tag.text ∈ tags .stateTime) :
    Reads id (formed scope inner tag (d := .decimal) expected .stateTime)
      (fun us e => Phrase scope.context (n + 1) expected (tag.text :: us) e) := by
  refine reads_leaf (t := .stateTime) htag (by rw [List.mem_singleton.1 htag]; rfl) rfl ?_
  intro t e hform
  constructor
  · intro h
    cases h with
    | stateTime => exact ⟨rfl, rfl⟩
    | _ => cases hform
  · rintro ⟨rfl, rfl⟩
    exact .stateTime

theorem reads_optionTime (expected : Option Unit) (htag : tag.text ∈ tags .optionTime) :
    Reads id (formed scope inner tag (d := .decimal) expected .optionTime)
      (fun us e => Phrase scope.context (n + 1) expected (tag.text :: us) e) := by
  refine reads_leaf (t := .optionTime) htag (by rw [List.mem_singleton.1 htag]; rfl) rfl ?_
  intro t e hform
  constructor
  · intro h
    cases h with
    | optionTime => exact ⟨rfl, rfl⟩
    | _ => cases hform
  · rintro ⟨rfl, rfl⟩
    exact .optionTime

theorem reads_reachedTarget (expected : Option Unit) (htag : tag.text ∈ tags .reachedTarget) :
    Reads id (formed scope inner tag (d := .boolean) expected .reachedTarget)
      (fun us e => Phrase scope.context (n + 1) expected (tag.text :: us) e) := by
  refine reads_leaf (t := .reachedTarget) htag (by rw [List.mem_singleton.1 htag]; rfl) rfl ?_
  intro t e hform
  constructor
  · intro h
    cases h with
    | reachedTarget => exact ⟨rfl, rfl⟩
    | _ => cases hform
  · rintro ⟨rfl, rfl⟩
    exact .reachedTarget

/-- An operand in front of which an operator stands. -/
theorem reads_operand
    (hinner : ∀ d expected, Reads id (inner d expected) (Phrase scope.context n expected))
    (sign : String) (d : Domain) (expected : Option d.Typing) :
    Reads id (formed.operand inner tag sign d expected) (Phrase scope.context n expected) :=
  (hinner d expected).within _ _

/-- Operands that follow one another. -/
theorem reads_operands
    (hinner : ∀ d expected, Reads id (inner d expected) (Phrase scope.context n expected))
    (sign : String) (k : Nat) :
    Reads id (many k (formed.operand inner tag sign .boolean none))
      (fun us es => ∃ ts, ts.flatMap Term.words = us ∧ ts.length = k ∧
        List.Forall₂ (fun t e => t.depth ≤ n ∧ t.Denotes scope.context none e) ts es) :=
  Reads.many (reads_operand hinner sign .boolean none) k

/-- An expression that is a tag and two operands. What is expected of the right one may depend on
the left one. -/
theorem reads_operation
    (hinner : ∀ d expected, Reads id (inner d expected) (Phrase scope.context n expected))
    {d dl dr : Domain} {expected : Option d.Typing} {sign : String} {form : Expr.Form d}
    {t : Term dl → Term dr → Term d} {e : Expr dl → Expr dr → Expr d}
    {f : Expr dl → Option dr.Typing} (htag : tag.text ∈ tags form)
    (hw : ∀ l r, (t l r).words = tag.text :: (l.words ++ r.words))
    (hn : ∀ l r, (t l r).depth = max l.depth r.depth + 1)
    (hmake : ∀ {l r l' r'}, l.Denotes scope.context none l' →
      r.Denotes scope.context (f l') r' → (t l r).Denotes scope.context expected (e l' r'))
    (hcases : ∀ t' e', t'.form = form → t'.Denotes scope.context expected e' →
      ∃ l r l' r', t' = t l r ∧ e' = e l' r' ∧ l.Denotes scope.context none l' ∧
        r.Denotes scope.context (f l') r') :
    Reads id (do
        let left ← formed.operand inner tag sign dl none
        let right ← formed.operand inner tag sign dr (f left)
        Pure.pure (e left right))
      (fun us e => Phrase scope.context (n + 1) expected (tag.text :: us) e) := by
  refine ((reads_operand hinner sign dl none).seq fun left =>
    (reads_operand hinner sign dr (f left)).seq_pure (e left)).congr fun us e' => ?_
  constructor
  · rintro ⟨_, _, l', rfl, ⟨l, rfl, hl, hdl⟩, r', ⟨r, rfl, hr, hdr⟩, rfl⟩
    refine ⟨t l r, hw l r, ?_, hmake hdl hdr⟩
    rw [hn]; omega
  · rintro ⟨t', hwords, hdepth, hd⟩
    obtain ⟨l, r, l', r', rfl, rfl, hdl, hdr⟩ := hcases t' e' (form_eq_of_tag htag hwords) hd
    rw [hn] at hdepth
    rw [hw] at hwords
    obtain ⟨-, rfl⟩ := List.cons.inj hwords
    exact ⟨_, _, _, rfl, ⟨l, rfl, by omega, hdl⟩, _, ⟨r, rfl, by omega, hdr⟩, rfl⟩

include hinner in
theorem reads_arithmetic (op : ArithmeticOp) (expected : Option Unit)
    (htag : tag.text ∈ tags (.arithmetic op)) :
    Reads id (formed scope inner tag (d := .decimal) expected (.arithmetic op))
      (fun us e => Phrase scope.context (n + 1) expected (tag.text :: us) e) := by
  have hw : ∀ l r, (Term.arithmetic op l r).words = tag.text :: (l.words ++ r.words) := by
    rw [List.mem_singleton.1 htag]
    exact fun _ _ => rfl
  refine reads_operation hinner (f := fun _ => none) htag hw (fun _ _ => rfl) .arithmetic ?_
  intro t e hform h
  cases h with
  | arithmetic hl hr =>
    cases hform
    exact ⟨_, _, _, _, rfl, rfl, hl, hr⟩
  | _ => cases hform

include hinner in
theorem reads_relation (op : RelationalOp) (expected : Option Unit)
    (htag : tag.text ∈ tags (.relation op)) :
    Reads id (formed scope inner tag (d := .boolean) expected (.relation op))
      (fun us e => Phrase scope.context (n + 1) expected (tag.text :: us) e) := by
  have hw : ∀ l r, (Term.relation op l r).words = tag.text :: (l.words ++ r.words) := by
    rw [List.mem_singleton.1 htag]
    exact fun _ _ => rfl
  refine reads_operation hinner (f := fun _ => none) htag hw (fun _ _ => rfl) .relation ?_
  intro t e hform h
  cases h with
  | relation hl hr =>
    cases hform
    exact ⟨_, _, _, _, rfl, rfl, hl, hr⟩
  | _ => cases hform

include hinner in
theorem reads_sameElement (expected : Option Unit) (htag : tag.text ∈ tags .sameElement) :
    Reads id (formed scope inner tag (d := .boolean) expected .sameElement)
      (fun us e => Phrase scope.context (n + 1) expected (tag.text :: us) e) := by
  have hw : ∀ l r, (Term.sameElement l r).words = tag.text :: (l.words ++ r.words) := by
    rw [List.mem_singleton.1 htag]
    exact fun _ _ => rfl
  refine reads_operation hinner (f := fun left => some left.typing) htag hw (fun _ _ => rfl)
    .sameElement ?_
  intro t e hform h
  cases h with
  | sameElement hl hr => exact ⟨_, _, _, _, rfl, rfl, hl, hr⟩
  | _ => cases hform

include hinner in
theorem reads_not (expected : Option Unit) (htag : tag.text ∈ tags .not) :
    Reads id (formed scope inner tag (d := .boolean) expected .not)
      (fun us e => Phrase scope.context (n + 1) expected (tag.text :: us) e) := by
  refine ((reads_operand hinner "!" .boolean none).seq_pure Expr.not).congr fun us e => ?_
  constructor
  · rintro ⟨operand, ⟨t, rfl, hn, ht⟩, rfl⟩
    rw [List.mem_singleton.1 htag]
    refine ⟨.not t, rfl, ?_, .not ht⟩
    rw [Term.depth]; omega
  · rintro ⟨t, hw, hn, ht⟩
    have hform := form_eq_of_tag htag hw
    cases ht with
    | not ht =>
      rw [Term.depth] at hn
      obtain ⟨-, rfl⟩ := List.cons.inj hw
      exact ⟨_, ⟨_, rfl, by omega, ht⟩, rfl⟩
    | _ => cases hform

include hinner in
theorem reads_connective (op : Connective) (expected : Option Unit)
    (htag : tag.text ∈ tags (.connective op)) :
    Reads id (formed scope inner tag (d := .boolean) expected (.connective op))
      (fun us e => Phrase scope.context (n + 1) expected (tag.text :: us) e) := by
  refine (Reads.count_bind fun k span => Reads.guard fun _ =>
    (reads_operands hinner op.sign k).seq_pure (Expr.connective op)).congr fun us e => ?_
  constructor
  · rintro ⟨count, _, k, rfl, hc, h0, es, ⟨ts, rfl, rfl, h⟩, rfl⟩
    rw [List.forall₂_and_left] at h
    rw [List.mem_singleton.1 htag]
    refine ⟨.connective op count ts, ?_, ?_, .connective hc (by simpa using h0)
      (Term.allDenote_iff.2 h.2)⟩
    · rw [Term.words, Term.allWords_eq]
    · rw [Term.depth]
      exact Nat.succ_le_succ (Term.allDepth_le.2 h.1)
  · rintro ⟨t, hw, hn, ht⟩
    have hform := form_eq_of_tag htag hw
    cases ht with
    | connective hc h0 ho =>
      cases hform
      rw [Term.words, Term.allWords_eq] at hw
      rw [Term.depth] at hn
      obtain ⟨-, rfl⟩ := List.cons.inj hw
      exact ⟨_, _, _, rfl, hc, by simpa using h0, _, ⟨_, rfl, rfl, (List.forall₂_and_left _ _).2
        ⟨Term.allDepth_le.1 (Nat.le_of_succ_le_succ hn), Term.allDenote_iff.1 ho⟩⟩, rfl⟩
    | _ => cases hform

/-! ### Expressions -/

include hinner in
/-- What follows a tag, for every form. -/
theorem reads_formed {d : Domain} (expected : Option d.Typing) {form : Expr.Form d}
    (htag : tag.text ∈ tags form) :
    Reads id (formed scope inner tag expected form)
      (fun us e => Phrase scope.context (n + 1) expected (tag.text :: us) e) := by
  cases form with
  | literal => exact reads_literal expected htag
  | parameter => exact reads_parameter expected htag
  | input => exact reads_input hinner expected htag
  | output => exact reads_output expected htag
  | choice => exact reads_choice hinner expected htag
  | arithmetic op => exact reads_arithmetic hinner op expected htag
  | stateTime => exact reads_stateTime expected htag
  | optionTime => exact reads_optionTime expected htag
  | connective op => exact reads_connective hinner op expected htag
  | not => exact reads_not hinner expected htag
  | relation op => exact reads_relation hinner op expected htag
  | sameElement => exact reads_sameElement hinner expected htag
  | reachedTarget => exact reads_reachedTarget expected htag

end

/-- **The language of expressions.** An expression is read, at most `n` levels deep, exactly if it
is one of the grammar that denotes something, and it denotes what is built. -/
theorem reads_expression {σ : Type} (scope : Scope σ) (n : Nat) (d : Domain)
    (expected : Option d.Typing) :
    Reads id (expression scope n d expected) (Phrase scope.context n expected) := by
  induction n generalizing d with
  | zero =>
    refine (Reads.of_error fun c => ⟨_, c, rfl⟩).congr fun ts e => ?_
    constructor
    · exact False.elim
    · rintro ⟨t, -, hn, -⟩
      have := t.depth_pos
      omega
  | succ n ih =>
    refine (Reads.word_bind (N := fun tag us e =>
      Phrase scope.context (n + 1) expected (tag.text :: us) e) (fun _ _ _ => rfl)
      fun tag => ?_).congr fun ts e => ?_
    · cases hf : tag.tag?.bind (Expr.Form.ofTag? d) with
      | none =>
        refine (Reads.fail id _ _).congr fun ts e => ?_
        constructor
        · exact False.elim
        · rintro ⟨t, hw, -⟩
          rw [form_eq_of_words hw] at hf
          cases hf
      | some form => exact reads_formed ih expected (form_ofTag?_iff.1 hf)
    · constructor
      · rintro ⟨_, _, rfl, h⟩
        exact h
      · rintro ⟨t, rfl, h⟩
        cases t <;> exact ⟨_, _, rfl, _, rfl, h⟩

end Grammar

end BehaviorEngine
