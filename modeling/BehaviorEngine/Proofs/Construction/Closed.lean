import BehaviorEngine.Host.Soundness
import BehaviorEngine.Proofs.Comparison.Constructions
import BehaviorEngine.Proofs.Graph.Typing

/-!
What holds of all constructions. A property that is kept however constructions are put together
holds of the construction of an option graph, if it holds of those that read a word and of those
that stop.

In bodies enumerations are looked up by position. These positions are mentioned by symbols,
behaviors and headers, so they are all taken, and no construction ever stops there. Nothing is asked
of a property for that case.
-/

namespace BehaviorEngine

open Grammar

variable {σ : Type}

/-! ### Known enumerations -/

/-- What a typed expression agrees with is known. -/
theorem Expr.Typed.knows {e : Draft σ} (h : e.Sound) {own : Parameters Unit}
    (hown : own.KnownTo e.symbols) {d : Domain} {x : Expr d}
    (hx : x.Typed e.symbols own.typing?) : e.symbols.Knows d x.typing := by
  induction x using Expr.induction with
  | @step d x ih =>
    cases d with
    | decimal | boolean => trivial
    | enumerated =>
      cases x with
      | literal t value =>
        obtain ⟨element, hvalue⟩ := hx
        obtain ⟨found, hfound, -⟩ := Option.bind_eq_some_iff.1 hvalue
        exact Symbols.enumeration?_isSome_iff.1 (Option.isSome_of_mem hfound)
      | parameter t i =>
        obtain ⟨p, hp, rfl⟩ := Option.map_eq_some_iff.1 hx
        exact hown _ p (Registry.at?_mem hp)
      | input t i bindings =>
        obtain ⟨symbol, hs, rfl, -⟩ := hx
        exact (h.inputs _ symbol (Registry.at?_mem hs)).1
      | output t i =>
        obtain ⟨symbol, hs, rfl⟩ := hx
        exact h.outputs _ symbol (Registry.at?_mem hs)
      | choice condition yes no =>
        exact ih ⟨.enumerated, yes⟩ (by simp [Expr.operands]) hx.2.1

/-- Every enumeration that something known in a body belongs to is registered. -/
structure Scope.Sound (scope : Scope σ) : Prop where
  draft : Draft.Sound ⟨scope.symbols, scope.behaviors⟩
  options : ∀ h ∈ scope.options.values, h.parameters.KnownTo scope.symbols
  parameters : scope.parameters.KnownTo scope.symbols

namespace Construct

variable {α β : Type}

/-! ### Outcomes -/

theorem mem_values_of_resolve {kind : NameKind} {r : Registry α} {name : Word}
    {found : Nat × α} {c c' : Cursor}
    (h : (Construct.resolve kind r name).runOn c = (.ok found, c')) : found.2 ∈ r.values := by
  unfold Construct.resolve at h
  cases hr : r.find? name.text with
  | none =>
    rw [hr] at h
    cases h
  | some x =>
    rw [hr] at h
    cases h
    exact Registry.mem_values_of_find? hr

/-- A request for a word that is not answered: there is nothing left, or the next lexeme, which is
taken away, is no word or one that is too long. -/
theorem word_eq_error {e : ConstructionError} {c c' : Cursor}
    (h : word.runOn c = (.error e, c')) :
    (c.reader.rest = [] ∧ e = ⟨.unexpectedEnd, ⟨c.reader.stop, c.reader.stop⟩, []⟩ ∧
      c' = { c with requests := c.requests + 1 }) ∨
    ∃ x rest, c.reader.rest = x :: rest ∧
      c' = { c with reader := { c.reader with rest }, requests := c.requests + 1 } ∧
      ∃ w, (x = .stray w ∧ e = ⟨.unrecognizedInput w.text, w.span, []⟩) ∨
        (x = .word w ∧ e = ⟨.wordTooLong w.text.utf8ByteSize c.reader.limit, w.span, []⟩) := by
  rcases hr : c.reader.rest with _ | ⟨w | w, rest⟩
  · rw [word_of_error (Reader.word_of_nil hr)] at h
    cases h
    exact .inl ⟨rfl, rfl, rfl⟩
  · rcases Nat.lt_or_ge c.reader.limit w.text.utf8ByteSize with hw | hw
    · rw [word_of_error (Reader.word_of_lt hr hw)] at h
      cases h
      exact .inr ⟨_, rest, rfl, rfl, w, .inr ⟨rfl, rfl⟩⟩
    · rw [word_of_ok (Reader.word_of_le hr hw)] at h
      cases h
  · rw [word_of_error (Reader.word_of_stray hr)] at h
    cases h
    exact .inr ⟨_, rest, rfl, rfl, w, .inl ⟨rfl, rfl⟩⟩

theorem runOn_of_within {node : Enclosing} {span : Span} {x : Construct α} {a : α} {c c' : Cursor}
    (h : (within node span x).runOn c = (.ok a, c')) : x.runOn c = (.ok a, c') := by
  rw [within_runOn] at h
  rcases hx : x.runOn c with ⟨_ | _, _⟩ <;> rw [hx] at h <;> cases h
  rfl

theorem exists_error_of_within {node : Enclosing} {span : Span} {x : Construct α}
    {e : ConstructionError} {c c' : Cursor}
    (h : (within node span x).runOn c = (.error e, c')) :
    ∃ e₁, x.runOn c = (.error e₁, c') ∧ e = e₁.within ⟨node, span⟩ := by
  rw [within_runOn] at h
  rcases hx : x.runOn c with ⟨e₁ | _, _⟩ <;> rw [hx] at h <;> cases h
  exact ⟨e₁, rfl, rfl⟩

/-- What every round of a loop keeps holds after the loop. -/
theorem iterate_invariant {A : α → Prop} {step : α → Construct α}
    (hA : ∀ {a c b c'}, A a → (step a).runOn c = (.ok b, c') → A b) {n : Nat} {a b : α}
    {c c' : Cursor} (ha : A a) (h : (iterate step n a).runOn c = (.ok b, c')) : A b := by
  induction n generalizing a c with
  | zero =>
    cases h
    exact ha
  | succ n ih =>
    obtain ⟨a₁, c₁, hstep, h⟩ := Stateful.bind_eq_ok_iff.1 h
    exact ih (hA ha hstep) h

/-- The expressions that are built agree with what is known. -/
theorem expression_knows {scope : Scope σ} (hscope : scope.Sound) {n : Nat} {d : Domain}
    {expected : Option d.Typing} {c c' : Cursor} {e : Expr d}
    (h : (expression scope n d expected).runOn c = (.ok e, c')) :
    scope.symbols.Knows d e.typing := by
  obtain ⟨_, -, t, -, -, ht⟩ := (reads_expression scope n d expected).consumes h
  exact ht.typed.knows hscope.draft hscope.parameters

/-- All headers declare parameters of enumerations that are registered. -/
def HeadersKnown (y : Symbols σ) (headers : Registry Header) : Prop :=
  ∀ h ∈ headers.values, h.parameters.KnownTo y

theorem headersKnown_of_header {y : Symbols σ} {headers headers' : Registry Header}
    {c c' : Cursor} (hknown : HeadersKnown y headers)
    (h : (header y headers).runOn c = (.ok headers', c')) : HeadersKnown y headers' := by
  obtain ⟨_, -, heading, -, e, he, ⟨-, hdenotes⟩, -⟩ := (reads_header y headers).consumes h
  have hvalues : headers'.values.map (·.parameters) =
      headers.values.map (·.parameters) ++ [e.2] := by
    have := congrArg (List.map Prod.snd) he
    rwa [List.map_append, ← Registry.values, ← Registry.values, Registry.values_map,
      Registry.values_map] at this
  intro x hx
  have hmem := List.mem_map_of_mem (f := (·.parameters)) hx
  rw [hvalues, List.mem_append, List.mem_singleton, List.mem_map] at hmem
  rcases hmem with ⟨old, hold, hparameters⟩ | hparameters
  · exact hparameters ▸ hknown old hold
  · exact hparameters ▸ hdenotes.knownTo

/-! ### Sequences -/

/-- **A property that sequences keep.** What comes after a construction only needs to have the
property for results of this construction. Constructions that stop have it, but nothing is said
about those that stop because an enumeration is not found. -/
structure Sequential (P : (α : Type) → Construct α → Prop) : Prop where
  pure {α : Type} (a : α) : P α (Pure.pure a)
  fail {α : Type} {cause : Cause} (span : Span)
    (h : ∀ name, cause ≠ .unresolved .enumeration name) : P α (Construct.fail cause span)
  bind {α β : Type} {x : Construct α} {f : α → Construct β} (h : P α x)
    (hf : ∀ {c a c'}, x.runOn c = (.ok a, c') → P β (f a)) : P β (x >>= f)
  word : P Word Construct.word
  cursor : P Cursor get

namespace Sequential

variable {P : (α : Type) → Construct α → Prop} (hP : Sequential P) {x : Construct α}

include hP

theorem seq {f : α → Construct β} (h : P α x) (hf : ∀ a, P β (f a)) : P β (x >>= f) :=
  hP.bind h fun _ => hf _

/-- A sequence whose last part only shapes the result. -/
theorem seq_pure (f : α → β) (h : P α x) : P β (x >>= fun a => Pure.pure (f a)) :=
  hP.seq h fun a => hP.pure (f a)

/-- A check in front of a construction. -/
theorem check {p : Prop} [Decidable p] {y : Construct PUnit} {f : PUnit → Construct β}
    (h : P PUnit y) (hf : P β (f ⟨⟩)) : P β (if p then y >>= f else f ⟨⟩) := by
  by_cases hp : p
  · rw [if_pos hp]
    exact hP.seq h fun _ => hf
  · rw [if_neg hp]
    exact hf

theorem tooDeep (limits : Limits) : P α (Construct.tooDeep limits) :=
  hP.seq hP.cursor fun _ => hP.fail _ nofun

theorem unknownTag (position : TagPosition) (tag : Word) :
    P α (Construct.unknownTag position tag) := hP.fail _ nofun

theorem value : P Decimal Construct.value := by
  refine hP.seq hP.word fun w => ?_
  unfold Reader.valueOf
  cases (readDecimal? w.text).filter Decimal.isFinite with
  | none => exact hP.fail _ nofun
  | some x => exact hP.pure x

theorem count : P (Nat × Span) Construct.count := by
  refine hP.seq hP.word fun w => ?_
  unfold Reader.countOf
  cases readCount? w.text with
  | none =>
    have hfail : P (Nat × Span) (Construct.fail (.invalidCount w.text) w.span) := hP.fail _ nofun
    exact hfail
  | some n => exact hP.pure (n, w.span)

theorem truth : P Bool Construct.truth := by
  refine hP.seq hP.word fun w => ?_
  split
  · exact hP.pure true
  · exact hP.pure false
  · exact hP.fail _ nofun

/-- An entry is looked up by its name. -/
theorem resolve {kind : NameKind} (hkind : kind ≠ .enumeration) (r : Registry α) (name : Word) :
    P (Nat × α) (Construct.resolve kind r name) := by
  unfold Construct.resolve
  cases r.find? name.text with
  | none => exact hP.fail _ (by rintro _ ⟨⟩; exact hkind rfl)
  | some found => exact hP.pure found

theorem resolve_bind {kind : NameKind} (hkind : kind ≠ .enumeration) {r : Registry α} {name : Word}
    {f : Nat × α → Construct β} (hf : ∀ i, ∀ x ∈ r.values, P β (f (i, x))) :
    P β (Construct.resolve kind r name >>= f) :=
  hP.bind (hP.resolve hkind r name) fun h => hf _ _ (mem_values_of_resolve h)

theorem append (kind : NameKind) (r : Registry α) (name : Word) (x : α) :
    P (Registry α) (Construct.append kind r name x) := by
  unfold Construct.append
  cases r.append name.text x with
  | error e => exact hP.fail _ nofun
  | ok s => exact hP.pure s

theorem iterate {step : α → Construct α} (h : ∀ a, P α (step a)) (n : Nat) (a : α) :
    P α (Construct.iterate step n a) := by
  induction n generalizing a with
  | zero => exact hP.pure a
  | succ n ih => exact hP.seq (h a) ih

theorem many (h : P α x) (n : Nat) : P (List α) (Construct.many n x) :=
  hP.iterate (fun xs => hP.seq_pure (fun a => xs ++ [a]) h) n []

/-- One item for each member of a list. -/
theorem mapM {f : α → Construct β} {as : List α} (h : ∀ a ∈ as, P β (f a)) :
    P (List β) (as.mapM f) := by
  induction as with
  | nil =>
    rw [List.mapM_nil]
    exact hP.pure []
  | cons a as ih =>
    rw [List.forall_mem_cons] at h
    rw [List.mapM_cons]
    exact hP.seq h.1 fun b => hP.seq_pure (fun bs => b :: bs) (ih h.2)

end Sequential

/-- **A property that is kept however constructions are put together.** -/
structure Closed (P : (α : Type) → Construct α → Prop) : Prop extends Sequential P where
  within {α : Type} (node : Enclosing) (span : Span) {x : Construct α} (h : P α x) :
    P α (Construct.within node span x)

namespace Closed

variable {P : (α : Type) → Construct α → Prop} {slot : Type}

/-! ### Expressions -/

/-- A property holds of all expressions inside others, and what these agree with is known. -/
structure OnExpressions (P : (α : Type) → Construct α → Prop) (y : Symbols σ)
    (inner : ExprReader) : Prop where
  holds : ∀ d expected, (∀ t ∈ expected, y.Knows d t) → P (Expr d) (inner d expected)
  knows : ∀ {d expected c e c'}, (inner d expected).runOn c = (.ok e, c') → y.Knows d e.typing

section Expressions

variable (hP : Closed P) {y : Symbols σ} {inner : ExprReader} (hinner : OnExpressions P y inner)

include hP

include hinner in
theorem binding {target : Parameters slot} (ht : target.KnownTo y) (owner : String)
    (bound : List Binding) : P Binding (binding inner target owner bound) := by
  refine hP.seq hP.word fun tag => hP.seq hP.word fun name => ?_
  cases tag.tag?.bind Domain.ofTag? with
  | none => exact hP.unknownTag _ tag
  | some d =>
    refine hP.resolve_bind (by nofun) fun i p hp => hP.check (hP.fail _ (by nofun)) ?_
    refine hP.seq_pure _ (hP.within _ _ (hinner.holds d _ ?_))
    rintro _ ⟨⟩
    exact ht d p hp

include hinner in
theorem arguments {target : Parameters slot} (ht : target.KnownTo y) (owner : String) :
    P (List Binding) (arguments inner target owner) := by
  refine hP.seq hP.count fun _ => hP.seq (hP.iterate (fun bs =>
    hP.seq_pure (fun b => bs ++ [b]) (hP.binding hinner ht owner bs)) _ []) fun bound => ?_
  cases Domain.all.findSome? (firstUnbound? target bound) with
  | some name => exact hP.fail _ nofun
  | none => exact hP.pure _

/-- The enumeration at a position that is known is found. -/
theorem enumerationOf {id : EnumId} (h : y.Knows .enumerated id) (name : Word) :
    P (String × Enumeration) (enumerationOf y name id) := by
  obtain ⟨found, elements, hid⟩ := h.exists_enumeration
  rw [Construct.enumerationOf, hid]
  exact hP.pure _

theorem agree (name : Word) {d : Domain} {expected : Option d.Typing} {found : d.Typing}
    (hexpected : ∀ t ∈ expected, y.Knows d t) (hfound : y.Knows d found) :
    P Unit (agree y name d expected found) := by
  unfold Construct.agree
  split
  · split
    · exact hP.pure _
    · exact hP.seq (hP.enumerationOf (hexpected _ rfl) name) fun _ =>
        hP.seq (hP.enumerationOf hfound name) fun _ => hP.fail _ nofun
  · exact hP.pure _

theorem literal {d : Domain} {expected : Option d.Typing}
    (hexpected : ∀ t ∈ expected, y.Knows d t) : P (Expr d) (literal y d expected) := by
  cases d with
  | decimal => exact hP.seq_pure _ hP.value
  | boolean => exact hP.seq_pure _ hP.truth
  | enumerated =>
    refine hP.seq hP.word fun element => ?_
    cases expected with
    | none => exact hP.fail _ nofun
    | some id =>
      refine hP.seq (hP.enumerationOf (hexpected id rfl) element) fun (name, elements) => ?_
      dsimp only
      cases elements.get? element.text with
      | none => exact hP.fail _ nofun
      | some x => exact hP.pure _

theorem formed {scope : Scope σ} (hscope : scope.Sound)
    (hinner : OnExpressions P scope.symbols inner) (tag : Word) {d : Domain}
    {expected : Option d.Typing} (hexpected : ∀ t ∈ expected, scope.symbols.Knows d t)
    (form : Expr.Form d) : P (Expr d) (formed scope inner tag expected form) := by
  have hoperand (sign : String) {d : Domain} {expected : Option d.Typing}
      (h : ∀ t ∈ expected, scope.symbols.Knows d t) :
      P (Expr d) (formed.operand inner tag sign d expected) :=
    hP.within _ _ (hinner.holds d expected h)
  cases form with
  | literal => exact hP.literal hexpected
  | parameter =>
    exact hP.seq hP.word fun name => hP.resolve_bind (by nofun) fun i p hp =>
      hP.seq_pure _ (hP.agree name hexpected (hscope.parameters d p hp))
  | input =>
    refine hP.seq hP.word fun name => hP.resolve_bind (by nofun) fun i s hs => ?_
    obtain ⟨htyping, hparameters⟩ := hscope.draft.inputs d s hs
    exact hP.seq (hP.agree name hexpected htyping) fun _ =>
      hP.seq_pure _ (hP.arguments hinner hparameters _)
  | output =>
    exact hP.seq hP.word fun name => hP.resolve_bind (by nofun) fun i s hs =>
      hP.seq_pure _ (hP.agree name hexpected (hscope.draft.outputs d s hs))
  | choice =>
    refine hP.seq (hinner.holds .boolean none nofun) fun _ =>
      hP.bind (hinner.holds d expected hexpected) fun hyes =>
      hP.seq_pure _ (hinner.holds d (some _) ?_)
    rintro _ ⟨⟩
    exact hinner.knows hyes
  | arithmetic op | relation op =>
    exact hP.seq (hoperand op.sign nofun) fun _ => hP.seq_pure _ (hoperand op.sign nofun)
  | stateTime | optionTime | reachedTarget => exact hP.pure _
  | connective op =>
    exact hP.seq hP.count fun _ => hP.check (hP.fail _ (by nofun))
      (hP.seq_pure _ (hP.many (hoperand op.sign (by nofun)) _))
  | not => exact hP.seq_pure _ (hoperand "!" nofun)
  | sameElement =>
    refine hP.bind (hoperand "==" (by nofun)) fun hleft => hP.seq_pure _ (hoperand "==" ?_)
    rintro _ ⟨⟩
    exact hinner.knows (runOn_of_within hleft)

end Expressions

section Scopes

variable (hP : Closed P) {scope : Scope σ} (hscope : scope.Sound)

include hP hscope

theorem expression (n : Nat) : OnExpressions P scope.symbols (expression scope n) where
  holds := by
    induction n with
    | zero => exact fun _ _ _ => hP.tooDeep scope.limits
    | succ n ih =>
      intro d expected hexpected
      refine hP.seq hP.word fun tag => ?_
      cases tag.tag?.bind (Expr.Form.ofTag? d) with
      | none => exact hP.unknownTag _ tag
      | some form => exact hP.formed hscope ⟨ih, expression_knows hscope⟩ tag hexpected form
  knows := expression_knows hscope

/-! ### States -/

theorem statement (n : Nat) : P Statement (statement scope n) := by
  induction n with
  | zero => exact hP.tooDeep scope.limits
  | succ n ih =>
    refine hP.seq hP.word fun tag => ?_
    split
    · exact hP.seq hP.word fun name => hP.seq_pure _ (hP.resolve (by nofun) _ name)
    · exact hP.seq ((hP.expression hscope n).holds .boolean none nofun) fun _ =>
        hP.seq ih fun _ => hP.seq_pure _ ih
    · exact hP.unknownTag _ tag

theorem action : P Action (action scope) := by
  have hexpression := hP.expression hscope scope.limits.nestingDepth
  refine hP.seq hP.word fun tag => hP.seq hP.word fun name => ?_
  cases tag.tag?.bind ActionForm.ofTag? with
  | none => exact hP.unknownTag _ tag
  | some form =>
    cases form with
    | activate =>
      exact hP.resolve_bind (by nofun) fun i header hheader => hP.seq_pure _
        (hP.within _ _ (hP.arguments hexpression (hscope.options header hheader) _))
    | behave =>
      exact hP.resolve_bind (by nofun) fun i behavior hbehavior => hP.seq_pure _
        (hP.within _ _ (hP.arguments hexpression (hscope.draft.behaviors behavior hbehavior) _))
    | assign d =>
      refine hP.resolve_bind (by nofun) fun i symbol hsymbol => hP.seq_pure _
        (hP.within _ _ (hexpression.holds d _ ?_))
      rintro _ ⟨⟩
      exact hscope.draft.outputs d symbol hsymbol

omit hscope in
theorem targetFlag : P Bool targetFlag := by
  refine hP.seq hP.word fun flag => ?_
  split
  · exact hP.pure false
  · exact hP.pure true
  · exact hP.fail _ nofun

theorem state : P Graph.State (state scope) :=
  hP.seq hP.targetFlag fun _ => hP.seq hP.count fun _ =>
    hP.seq (hP.many (hP.action hscope) _) fun _ => hP.seq_pure _ (hP.statement hscope _)

theorem namedState (expected : String) : P Graph.State (namedState scope expected) :=
  hP.seq hP.word fun _ => hP.check (hP.fail _ (by nofun)) (hP.within _ _ (hP.state hscope))

end Scopes

/-! ### Options -/

section Options

variable (hP : Closed P) (limits : Limits) (environment : Environment σ)

include hP

theorem body {options : Registry Header} (hoptions : HeadersKnown environment.symbols options)
    {parameters : Parameters Unit} (hparameters : parameters.KnownTo environment.symbols) :
    P Graph.Node (body limits environment options parameters) := by
  have hscope (names : Registry Unit) : (⟨limits, environment.symbols, environment.behaviors,
      options, parameters, names⟩ : Scope σ).Sound := ⟨environment.sound, hoptions, hparameters⟩
  have hname (names : Registry Unit) : P (Registry Unit) (stateName names) :=
    hP.seq hP.word fun name => hP.append _ names name ()
  exact hP.seq hP.count fun _ => hP.seq (hP.iterate hname _ _) fun names =>
    hP.seq hP.word fun name => hP.seq (hP.resolve (by nofun) names name) fun _ =>
      hP.seq_pure _ (hP.mapM fun expected _ => hP.namedState (hscope names) expected)

theorem namedBody {options : Registry Header} (hoptions : HeadersKnown environment.symbols options)
    {expected : String × Header} (hexpected : expected ∈ options.entries) :
    P Graph.Node (namedBody limits environment options expected) :=
  hP.seq hP.word fun _ => hP.check (hP.within _ _ (hP.fail _ (by nofun))) (hP.within _ _
    (hP.body limits environment hoptions (hoptions _ (List.mem_map_of_mem hexpected))))

theorem agent (options : Registry Header) (agents : Registry Nat) :
    P (Registry Nat) (agent options agents) :=
  hP.seq hP.word fun name => hP.seq hP.word fun root =>
    hP.seq (hP.within _ _ (hP.resolve (by nofun) options root)) fun _ => hP.append _ agents name _

end Options

end Closed

namespace Sequential

variable {P : (α : Type) → Construct α → Prop} (hP : Sequential P)

include hP

/-- Headers look enumerations up by their names; this is the only way in which these are not
found. -/
theorem header {y : Symbols σ}
    (hlost : ∀ name span, name ∉ y.enumerations.names →
      P (Nat × Enumeration) (Construct.fail (.unresolved .enumeration name) span))
    (headers : Registry Header) : P (Registry Header) (header y headers) := by
  refine hP.seq hP.word fun name => hP.seq hP.count fun _ =>
    hP.seq (hP.iterate (fun ps => ?_) _ _) fun _ => hP.append _ headers name _
  refine hP.seq hP.word fun tag => ?_
  cases tag.tag?.bind Domain.ofTag? with
  | none => exact hP.unknownTag _ tag
  | some d =>
    refine hP.seq ?_ fun _ => hP.seq hP.word fun name => hP.seq_pure _ (hP.append _ _ name _)
    cases d with
    | decimal | boolean => exact hP.pure ()
    | enumerated =>
      refine hP.seq hP.word fun name => hP.seq_pure Prod.fst ?_
      unfold Construct.resolve
      cases hfound : y.enumerations.find? name.text with
      | some found => exact hP.pure found
      | none =>
        refine hlost _ _ fun hmem => ?_
        obtain ⟨i, hi⟩ := List.mem_iff_getElem?.1 hmem
        obtain ⟨x, hx⟩ := Registry.exists_entry hi
        rw [Registry.find?_eq_some_iff.2 hx] at hfound
        cases hfound

/-- **A property of option graphs**, up to the check that nothing is left, if it holds of headers,
of bodies and of agents. -/
theorem openGraph (limits : Limits) (environment : Environment σ)
    (hheader : ∀ headers, P (Registry Header) (Construct.header environment.symbols headers))
    (hbody : ∀ headers, HeadersKnown environment.symbols headers → ∀ expected ∈ headers.entries,
      P Graph.Node (namedBody limits environment headers expected))
    (hagent : ∀ options agents, P (Registry Nat) (agent options agents)) :
    P Graph (openGraph limits environment) := by
  refine hP.seq hP.count fun ⟨n, span⟩ => hP.check (hP.fail _ (by nofun)) ?_
  refine hP.bind (hP.iterate hheader n _) fun hheaders => ?_
  have hknown := iterate_invariant (A := HeadersKnown environment.symbols)
    headersKnown_of_header (fun _ h => absurd h List.not_mem_nil) hheaders
  exact hP.seq (hP.mapM (hbody _ hknown)) fun nodes => hP.seq hP.count fun _ =>
    hP.seq_pure _ (hP.iterate (hagent _) _ _)

end Sequential

/-- **A property that is kept however constructions are put together holds of option graphs**, up to
the check that nothing is left. -/
theorem Closed.openGraph {P : (α : Type) → Construct α → Prop} (hP : Closed P) (limits : Limits)
    (environment : Environment σ)
    (hlost : ∀ name span, name ∉ environment.symbols.enumerations.names →
      P (Nat × Enumeration) (Construct.fail (.unresolved .enumeration name) span)) :
    P Graph (Construct.openGraph limits environment) :=
  hP.toSequential.openGraph limits environment (hP.header hlost)
    (fun _ hheaders _ => hP.namedBody limits environment hheaders) hP.agent

end Construct

end BehaviorEngine
