import BehaviorEngine.Proofs.Comparison.Reading

/-!
All constructions go on alike. Results are the same in both readings but for the places of words,
which only the headers of options keep, for the sake of later errors. The limits of the two readings
may differ, if it is excused that the first one is nested too deep where the second one is not.
-/

namespace BehaviorEngine

open Construct

namespace Comparison

variable {K : Comparison} {σ slot : Type}

/-! ### Limits -/

/-- The levels of nesting that are left in two readings correspond: there are as many, or there are
no more in the first one and it is excused if they do not suffice. -/
inductive OnDepths (K : Comparison) (limits limits' : Limits) : Nat → Nat → Prop
  | same (h : limits = limits') (n : Nat) : OnDepths K limits limits' n n
  | fewer (h : ∀ span, K.excused (.nestingTooDeep limits.nestingDepth) span) {n n' : Nat}
      (hn : n ≤ n') : OnDepths K limits limits' n n'

/-- Two limits correspond as far as nesting goes. -/
def OnLimits (K : Comparison) (limits limits' : Limits) : Prop :=
  K.OnDepths limits limits' limits.nestingDepth limits'.nestingDepth

theorem OnLimits.refl (limits : Limits) : K.OnLimits limits limits := .same rfl _

namespace OnDepths

variable {limits limits' : Limits} {n n' : Nat}

/-- If no level is left to the first reading, then none is left to the second one or that is
excused. -/
theorem tooDeep {α : Type} {A : α → α → Prop} (hK : K.Lawful) (h : K.OnDepths limits limits' 0 n')
    {x : Construct α} (hx : n' = 0 → x = Construct.tooDeep limits') :
    K.Beside A (Construct.tooDeep limits) x := by
  cases h with
  | same h =>
    subst h
    rw [hx rfl]
    exact .tooDeep hK limits
  | fewer h => exact fun _ _ _ => .excused (h _)

/-- A level of the first reading is one of the second reading. -/
theorem succ (h : K.OnDepths limits limits' (n + 1) n') :
    ∃ m, n' = m + 1 ∧ K.OnDepths limits limits' n m := by
  cases h with
  | same h => exact ⟨n, rfl, .same h n⟩
  | fewer h hn => exact ⟨n' - 1, by omega, .fewer h (by omega)⟩

end OnDepths

/-! ### Expressions -/

section Expressions

variable {inner inner' : ExprReader}

theorem binding (hK : K.Lawful) (hinner : ∀ d τ, K.Beside Eq (inner d τ) (inner' d τ))
    (target : Parameters slot) (owner : String) (bound : List Binding) :
    K.Beside Eq (binding inner target owner bound) (binding inner' target owner bound) := by
  refine hK.word.bind fun tag tag' htag => hK.word.bind fun name name' hname => ?_
  rw [Word.tag?, htag.text, ← Word.tag?]
  cases tag'.tag?.bind Domain.ofTag? with
  | none => exact .unknownTag _ htag
  | some d =>
    refine .resolve_bind hname fun i p => ?_
    rw [hname.text]
    exact .check (.fail hname.place)
      ((Beside.within _ hname.place (hinner d _)).seq_pure _)

theorem arguments (hK : K.Lawful) (hinner : ∀ d τ, K.Beside Eq (inner d τ) (inner' d τ))
    (target : Parameters slot) (owner : String) :
    K.Beside Eq (arguments inner target owner) (arguments inner' target owner) := by
  refine .count_bind hK fun n span span' hspan => Beside.seq (.iterate_same (fun bs =>
    (binding hK hinner target owner bs).seq_pure fun b => bs ++ [b]) n []) fun bound => ?_
  cases Domain.all.findSome? (firstUnbound? target bound) with
  | some name => exact .fail hspan
  | none => exact .pure rfl

theorem enumerationOf (symbols : Symbols σ) {name name' : Word} (hname : K.OnWords name name')
    (id : EnumId) :
    K.Beside Eq (enumerationOf symbols name id) (enumerationOf symbols name' id) := by
  unfold Construct.enumerationOf
  cases symbols.enumeration? id with
  | some found => exact .pure rfl
  | none =>
    rw [hname.text]
    exact .fail hname.place

theorem agree (symbols : Symbols σ) {name name' : Word} (hname : K.OnWords name name')
    (d : Domain) (expected : Option d.Typing) (found : d.Typing) :
    K.Beside Eq (agree symbols name d expected found) (agree symbols name' d expected found) := by
  unfold Construct.agree
  split
  · split
    · exact .pure rfl
    · exact (enumerationOf symbols hname _).seq fun _ =>
        (enumerationOf symbols hname _).seq fun _ => .fail hname.place
  · exact .pure rfl

theorem literal (hK : K.Lawful) (symbols : Symbols σ) (d : Domain) (expected : Option d.Typing) :
    K.Beside Eq (literal symbols d expected) (literal symbols d expected) := by
  cases d with
  | decimal => exact (Beside.value hK).seq_pure _
  | boolean => exact (Beside.truth hK).seq_pure _
  | enumerated =>
    refine hK.word.bind fun element element' helement => ?_
    rw [helement.text]
    cases expected with
    | none => exact .fail helement.place
    | some id =>
      refine (enumerationOf symbols helement id).seq fun (name, elements) => ?_
      dsimp only
      cases elements.get? element'.text with
      | none => exact .fail helement.place
      | some x => exact .pure rfl

theorem operand {tag tag' : Word} (htag : K.OnWords tag tag')
    (hinner : ∀ d τ, K.Beside Eq (inner d τ) (inner' d τ)) (sign : String) (d : Domain)
    (expected : Option d.Typing) :
    K.Beside Eq (formed.operand inner tag sign d expected)
      (formed.operand inner' tag' sign d expected) :=
  .within _ htag.place (hinner d expected)

theorem formed (hK : K.Lawful) (scope : Scope σ) (limits : Limits) (options : Registry Header)
    (hinner : ∀ d τ, K.Beside Eq (inner d τ) (inner' d τ)) {tag tag' : Word}
    (htag : K.OnWords tag tag') {d : Domain} (expected : Option d.Typing) (form : Expr.Form d) :
    K.Beside Eq (formed scope inner tag expected form)
      (formed { scope with limits, options } inner' tag' expected form) := by
  have hoperand := operand htag hinner
  cases form with
  | literal => exact literal hK scope.symbols d expected
  | parameter =>
    exact hK.word.bind fun name name' hname => .resolve_bind hname fun i p =>
      (agree scope.symbols hname d expected p.typing).seq fun _ => .pure rfl
  | input =>
    refine hK.word.bind fun name name' hname => .resolve_bind hname fun i s =>
      (agree scope.symbols hname d expected s.typing).seq fun _ => ?_
    rw [hname.text]
    exact (arguments hK hinner s.parameters name'.text).seq_pure _
  | output =>
    exact hK.word.bind fun name name' hname => .resolve_bind hname fun i s =>
      (agree scope.symbols hname d expected s.typing).seq fun _ => .pure rfl
  | choice =>
    exact (hinner .boolean none).seq fun condition => (hinner d expected).seq fun yes =>
      (hinner d (some yes.typing)).seq_pure _
  | arithmetic op =>
    exact (hoperand op.sign .decimal none).seq fun left =>
      (hoperand op.sign .decimal none).seq_pure _
  | stateTime | optionTime | reachedTarget => exact .pure rfl
  | connective op =>
    exact .count_bind hK fun n _ _ _ => .check (.fail htag.place)
      ((Beside.many (hoperand op.sign .boolean none) n).seq_pure _)
  | not => exact (hoperand "!" .boolean none).seq_pure _
  | relation op =>
    exact (hoperand op.sign .decimal none).seq fun left =>
      (hoperand op.sign .decimal none).seq_pure _
  | sameElement =>
    exact (hoperand "==" .enumerated none).seq fun left =>
      (hoperand "==" .enumerated (some left.typing)).seq_pure _

end Expressions

section Trees

variable {scope : Scope σ} {limits : Limits} {n n' : Nat}

/-- Expressions are constructed alike. -/
theorem expression (hK : K.Lawful) (options : Registry Header)
    (h : K.OnDepths scope.limits limits n n') (d : Domain) (expected : Option d.Typing) :
    K.Beside Eq (expression scope n d expected)
      (expression { scope with limits, options } n' d expected) := by
  induction n generalizing n' d with
  | zero => exact h.tooDeep hK fun hn => by rw [hn, Construct.expression]
  | succ n ih =>
    obtain ⟨n', rfl, hn⟩ := h.succ
    refine hK.word.bind fun tag tag' htag => ?_
    rw [Word.tag?, htag.text, ← Word.tag?]
    cases tag'.tag?.bind (Expr.Form.ofTag? d) with
    | none => exact .unknownTag _ htag
    | some form => exact formed hK scope limits options (fun d τ => ih hn d τ) htag expected form

/-! ### States -/

theorem statement (hK : K.Lawful) (options : Registry Header)
    (h : K.OnDepths scope.limits limits n n') :
    K.Beside Eq (statement scope n) (statement { scope with limits, options } n') := by
  induction n generalizing n' with
  | zero => exact h.tooDeep hK fun hn => by rw [hn, Construct.statement]
  | succ n ih =>
    obtain ⟨n', rfl, hn⟩ := h.succ
    refine hK.word.bind fun tag tag' htag => ?_
    rw [Word.tag?, htag.text, ← Word.tag?]
    split
    · exact hK.word.bind fun name name' hname => .resolve_bind hname fun i _ => .pure rfl
    · exact (expression hK options hn .boolean none).seq fun condition => (ih hn).seq fun yes =>
        (ih hn).seq_pure _
    · exact .unknownTag _ htag

end Trees

/-- The same parameters, declared at corresponding places. -/
structure OnHeaders (K : Comparison) (h h' : Header) : Prop where
  parameters : h.parameters = h'.parameters
  place : K.place h.span h'.span

section States

variable {scope : Scope σ} {limits : Limits} {options : Registry Header}

theorem action (hK : K.Lawful) (hl : K.OnLimits scope.limits limits)
    (ho : OnRegistries K.OnHeaders scope.options options) :
    K.Beside Eq (action scope) (action { scope with limits, options }) := by
  have hexpr := expression hK options hl
  refine hK.word.bind fun tag tag' htag => hK.word.bind fun name name' hname => ?_
  rw [Word.tag?, htag.text, ← Word.tag?]
  cases tag'.tag?.bind ActionForm.ofTag? with
  | none => exact .unknownTag _ htag
  | some form =>
    cases form with
    | activate =>
      refine (Beside.resolve _ ho hname).bind ?_
      rintro ⟨i, header⟩ ⟨_, header'⟩ ⟨rfl, hheader⟩
      dsimp only at hheader ⊢
      rw [hname.text, hheader.parameters]
      exact (Beside.within _ hname.place (arguments hK hexpr header'.parameters _)).seq_pure _
    | behave =>
      refine .resolve_bind hname fun i behavior => ?_
      rw [hname.text]
      exact (Beside.within _ hname.place (arguments hK hexpr _ _)).seq_pure _
    | assign d =>
      refine .resolve_bind hname fun i symbol => ?_
      rw [hname.text]
      exact (Beside.within _ hname.place (hexpr d _)).seq_pure _

theorem targetFlag (hK : K.Lawful) : K.Beside Eq targetFlag targetFlag := by
  refine hK.word.bind fun flag flag' hflag => ?_
  rw [hflag.text]
  split
  · exact .pure rfl
  · exact .pure rfl
  · exact .fail hflag.place

theorem state (hK : K.Lawful) (hl : K.OnLimits scope.limits limits)
    (ho : OnRegistries K.OnHeaders scope.options options) :
    K.Beside Eq (state scope) (state { scope with limits, options }) :=
  (targetFlag hK).seq fun _ => .count_bind hK fun n _ _ _ =>
    (Beside.many (action hK hl ho) n).seq fun _ => (statement hK options hl).seq_pure _

theorem namedState (hK : K.Lawful) (hl : K.OnLimits scope.limits limits)
    (ho : OnRegistries K.OnHeaders scope.options options) (expected : String) :
    K.Beside Eq (namedState scope expected)
      (namedState { scope with limits, options } expected) := by
  refine hK.word.bind fun name name' hname => ?_
  rw [hname.text]
  exact .check (.fail hname.place) (.within _ hname.place (state hK hl ho))

end States

/-! ### Options -/

theorem parameter (hK : K.Lawful) (symbols : Symbols σ) (ps : Parameters Unit) :
    K.Beside Eq (parameter symbols ps) (parameter symbols ps) := by
  refine hK.word.bind fun tag tag' htag => ?_
  rw [Word.tag?, htag.text, ← Word.tag?]
  cases tag'.tag?.bind Domain.ofTag? with
  | none => exact .unknownTag _ htag
  | some d =>
    have htyping : K.Beside Eq (Construct.parameter.typing symbols d)
        (Construct.parameter.typing symbols d) := by
      cases d with
      | decimal | boolean => exact .pure rfl
      | enumerated =>
        exact hK.word.bind fun name name' hname => .resolve_bind hname fun id _ => .pure rfl
    exact htyping.seq fun typing => hK.word.bind fun name name' hname =>
      (Beside.append_same _ _ hname).seq_pure _

theorem header (hK : K.Lawful) (symbols : Symbols σ) {headers headers' : Registry Header}
    (h : OnRegistries K.OnHeaders headers headers') :
    K.Beside (OnRegistries K.OnHeaders) (header symbols headers) (header symbols headers') :=
  hK.word.bind fun _ _ hname => .count_bind hK fun n _ _ _ =>
    (Beside.iterate_same (parameter hK symbols) n _).seq fun _ =>
      .append _ h hname ⟨rfl, hname.place⟩

theorem stateName (hK : K.Lawful) (names : Registry Unit) :
    K.Beside Eq (stateName names) (stateName names) :=
  hK.word.bind fun _ _ hname => .append_same _ _ hname

section Bodies

variable {limits limits' : Limits} {options options' : Registry Header}

theorem body (hK : K.Lawful) (hl : K.OnLimits limits limits') (environment : Environment σ)
    (ho : OnRegistries K.OnHeaders options options') (parameters : Parameters Unit) :
    K.Beside Eq (body limits environment options parameters)
      (body limits' environment options' parameters) := by
  refine .count_bind hK fun n _ _ _ => (Beside.iterate_same (stateName hK) n _).seq fun names =>
    hK.word.bind fun _ _ hname => .resolve_bind hname fun initial _ => ?_
  exact (Beside.mapM (A := Eq) (fun expected _ he => he ▸ namedState hK hl ho expected)
    (List.forall₂_same.2 fun _ _ => rfl)).seq_pure _

theorem namedBody (hK : K.Lawful) (hl : K.OnLimits limits limits') (environment : Environment σ)
    (ho : OnRegistries K.OnHeaders options options') {expected expected' : String × Header}
    (hname : expected.1 = expected'.1) (hheader : K.OnHeaders expected.2 expected'.2) :
    K.Beside Eq (namedBody limits environment options expected)
      (namedBody limits' environment options' expected') := by
  refine hK.word.bind fun name name' h => ?_
  rw [h.text, hname, hheader.parameters]
  exact .check (.within _ hheader.place (.fail h.place))
    (.within _ h.place (body hK hl environment ho _))

theorem agent (hK : K.Lawful) (ho : OnRegistries K.OnHeaders options options')
    (agents : Registry Nat) :
    K.Beside Eq (agent options agents) (agent options' agents) := by
  refine hK.word.bind fun name name' hname => hK.word.bind fun root root' hroot => ?_
  rw [hname.text]
  refine (Beside.within _ hname.place (Beside.resolve _ ho hroot)).bind ?_
  rintro ⟨i, header⟩ ⟨_, header'⟩ ⟨rfl, -⟩
  exact .append_same _ _ hname

end Bodies

end Comparison

namespace Construct

variable {σ : Type}

/-- An option graph, without the check that nothing is left. -/
def openGraph (limits : Limits) (environment : Environment σ) : Construct Graph := do
  let (n, span) ← count
  if n = 0 then fail .emptyGraph span
  let headers ← iterate (header environment.symbols) n Registry.empty
  let nodes ← headers.entries.mapM (namedBody limits environment headers)
  let (m, _) ← count
  let agents ← iterate (agent headers) m Registry.empty
  return ⟨headers.withValues nodes, agents⟩

theorem graph_eq (limits : Limits) (environment : Environment σ) :
    graph limits environment = do
      let g ← openGraph limits environment
      finish
      return g := by
  unfold graph openGraph
  simp only [bind_assoc]
  congr 1
  funext ⟨n, span⟩
  dsimp only
  split
  · rfl
  · simp only [bind_assoc, pure_bind]

end Construct

namespace Comparison

variable {K : Comparison} {σ : Type}

/-- **Option graphs are constructed alike**, up to the check that nothing is left. -/
theorem openGraph (hK : K.Lawful) {limits limits' : Limits} (hl : K.OnLimits limits limits')
    (environment : Environment σ) :
    K.Beside Eq (openGraph limits environment) (openGraph limits' environment) := by
  refine .count_bind hK fun n span span' hspan => .check (.fail hspan) ?_
  refine (Beside.iterate (fun _ _ => header hK environment.symbols) n .empty).bind
    fun headers headers' hheaders => ?_
  refine (Beside.mapM (fun _ _ h => namedBody hK hl environment hheaders h.1 h.2)
    hheaders).seq fun nodes => .count_bind hK fun m _ _ _ =>
    (Beside.iterate_same (agent hK hheaders) m _).seq fun agents => ?_
  rw [show headers.withValues nodes = headers'.withValues nodes from
    Registry.ext (by simp only [Registry.withValues, hheaders.names_eq])]
  exact .pure rfl

end Comparison

end BehaviorEngine
