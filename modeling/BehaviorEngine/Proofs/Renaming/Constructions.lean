import BehaviorEngine.Construction.Graph
import BehaviorEngine.Proofs.Renaming.Graphs

/-!
Construction does not depend on the order of registration. All that a source names is found under
its name, so with an environment in another order the same is read, the same errors are found at the
same places, and the graph is the same but for the positions that it takes from the environment.

The first section says how constructions are put together, the others follow their definitions.
-/

namespace BehaviorEngine

/-! ### What is known -/

/-- The declaration of an option for the other environment. -/
def Header.rename (ρ : Renaming) (h : Header) : Header :=
  { h with parameters := h.parameters.rename ρ }

/-- Of two environments the same is known inside an option's body, in another order. -/
structure Scope.Renames {σ : Type} (ρ : Renaming) (scope scope' : Scope σ) : Prop where
  limits : scope'.limits = scope.limits
  symbols : scope.symbols.Renames ρ scope'.symbols
  behaviors : scope.behaviors.Moves ρ.behavior (BasicBehavior.rename ρ) scope'.behaviors
  options : scope'.options = scope.options.map (Header.rename ρ)
  parameters : scope'.parameters = scope.parameters.rename ρ
  states : scope'.states = scope.states

namespace Construct

/-! ### Images of constructions -/

section Maps

variable {α β γ δ : Type} {f : α → β} {g : γ → δ}

theorem map_runOn (f : α → β) (x : Construct α) (c : Cursor) :
    (f <$> x).runOn c = ((x.runOn c).1.map f, (x.runOn c).2) := by
  rw [← bind_pure_comp]
  rcases hx : x.runOn c with ⟨e | a, c₁⟩
  · rw [Stateful.bind_of_error hx]
    rfl
  · rw [Stateful.bind_of_ok hx]
    rfl

/-- **A construction gives the image of what another one gives**: it reads the same, and stops at
the same errors. -/
def Maps (f : α → β) (x : Construct α) (y : Construct β) : Prop := y = f <$> x

namespace Maps

variable {x : Construct α} {y : Construct β} {k : α → Construct γ}

theorem pure {a : α} {b : β} (h : b = f a) :
    Maps f (Pure.pure a : Construct α) (Pure.pure b : Construct β) := by
  rw [Maps, map_pure, h]

theorem bind {k' : β → Construct δ} (h : Maps f x y) (hk : ∀ a, Maps g (k a) (k' (f a))) :
    Maps g (x >>= k) (y >>= k') := by
  rw [Maps, h, bind_map_left, map_bind]
  exact congrArg _ (funext hk)

/-- A sequence with the same first part. -/
theorem next (x : Construct α) {k' : α → Construct δ} (hk : ∀ a, Maps g (k a) (k' a)) :
    Maps g (x >>= k) (x >>= k') := by
  rw [Maps, map_bind]
  exact congrArg _ (funext hk)

/-- A sequence whose last part only shapes the result. -/
theorem bind_pure {a : α → γ} {b : β → δ} (h : Maps f x y) (hab : ∀ t, b (f t) = g (a t)) :
    Maps g (x >>= fun t => Pure.pure (a t)) (y >>= fun t => Pure.pure (b t)) :=
  h.bind fun t => .pure (hab t)

theorem fail (cause : Cause) (span : Span) :
    Maps f (Construct.fail cause span) (Construct.fail cause span) := rfl

theorem unknownTag (position : TagPosition) (tag : Word) :
    Maps f (Construct.unknownTag position tag) (Construct.unknownTag position tag) := rfl

theorem tooDeep (limits : Limits) :
    Maps f (Construct.tooDeep limits) (Construct.tooDeep limits) :=
  next get fun _ => .fail _ _

theorem within (node : Enclosing) (span : Span) (h : Maps f x y) :
    Maps f (Construct.within node span x) (Construct.within node span y) := by
  subst h
  funext c
  change (Construct.within node span (f <$> x)).runOn c =
    (f <$> Construct.within node span x).runOn c
  rw [within_runOn, map_runOn, map_runOn, within_runOn]
  cases (x.runOn c).1 with
  | ok a => rfl
  | error e => rfl

/-- A check in front of two constructions. -/
theorem check {p : Prop} [Decidable p] {x : Construct PUnit} {k : PUnit → Construct γ}
    {k' : PUnit → Construct δ} (h : Maps g (k ⟨⟩) (k' ⟨⟩)) :
    Maps g (if p then x >>= k else k ⟨⟩) (if p then x >>= k' else k' ⟨⟩) := by
  by_cases hp : p
  · rw [if_pos hp, if_pos hp]
    exact next x fun _ => h
  · rw [if_neg hp, if_neg hp]
    exact h

/-- A name is resolved to positions that correspond. -/
theorem resolve {φ : Equiv.Perm Nat} {r : Registry α} {s : Registry β} (h : r.Moves φ f s)
    (kind : NameKind) (name : Word) :
    Maps (fun p => (φ p.1, f p.2)) (Construct.resolve kind r name)
      (Construct.resolve kind s name) := by
  unfold Construct.resolve
  rw [h.find? name.text]
  cases r.find? name.text with
  | none => exact fail _ _
  | some found => exact pure rfl

theorem append (kind : NameKind) (r : Registry α) (name : Word) (a : α) :
    Maps (Registry.map f) (Construct.append kind r name a)
      (Construct.append kind (r.map f) name (f a)) := by
  unfold Construct.append
  rw [Registry.append_map]
  cases r.append name.text a with
  | ok s => exact pure rfl
  | error e => exact fail _ _

theorem iterate {step : α → Construct α} {step' : β → Construct β}
    (h : ∀ a, Maps f (step a) (step' (f a))) (n : Nat) (a : α) :
    Maps f (Construct.iterate step n a) (Construct.iterate step' n (f a)) := by
  induction n generalizing a with
  | zero => exact pure rfl
  | succ n ih => exact (h a).bind ih

theorem many (h : Maps f x y) (n : Nat) :
    Maps (List.map f) (Construct.many n x) (Construct.many n y) :=
  iterate (fun xs => h.bind_pure fun a => by rw [List.map_append, List.map_singleton]) n []

/-- One item for each member of a list. -/
theorem mapM {item : α → Construct γ} {item' : β → Construct δ}
    (h : ∀ a, Maps g (item a) (item' (f a))) (as : List α) :
    Maps (List.map g) (as.mapM item) ((as.map f).mapM item') := by
  induction as with
  | nil =>
    rw [List.map_nil, List.mapM_nil, List.mapM_nil]
    exact pure rfl
  | cons a as ih =>
    rw [List.map_cons, List.mapM_cons, List.mapM_cons]
    exact (h a).bind fun b => ih.bind_pure fun bs => rfl

end Maps

end Maps

variable {σ slot : Type} {ρ : Renaming}

/-! ### Call sites -/

section CallSites

variable {inner inner' : ExprReader}
  (hinner : ∀ d t, Maps (Expr.rename ρ) (inner d t) (inner' d (t.map (ρ.typing d))))

/-- The same parameters are bound. -/
theorem any_rename (bound : List Binding) (d : Domain) (i : Nat) :
    ((bound.map (Binding.rename ρ)).any fun b => b.domain = d ∧ b.index = i) =
      bound.any fun b => b.domain = d ∧ b.index = i := by
  rw [List.any_map]
  simp [Function.comp_def]

include hinner

theorem binding_maps (target : Parameters slot) (owner : String) (bound : List Binding) :
    Maps (Binding.rename ρ) (binding inner target owner bound)
      (binding inner' (target.rename ρ) owner (bound.map (Binding.rename ρ))) := by
  refine .next _ fun tag => .next _ fun name => ?_
  cases tag.tag?.bind Domain.ofTag? with
  | none => exact .unknownTag _ _
  | some d =>
    simp only [Parameters.get_rename]
    refine (Maps.resolve (Registry.moves_map _ _) _ _).bind fun p => ?_
    simp only [any_rename]
    exact .check ((Maps.within _ _ (hinner d _)).bind_pure fun _ => rfl)

omit hinner in
theorem firstUnbound?_rename (target : Parameters slot) (bound : List Binding) :
    firstUnbound? (target.rename ρ) (bound.map (Binding.rename ρ)) =
      firstUnbound? target bound := by
  funext d
  simp only [firstUnbound?, Parameters.get_rename, Registry.names_map, any_rename]

theorem arguments_maps (target : Parameters slot) (owner : String) :
    Maps (List.map (Binding.rename ρ)) (arguments inner target owner)
      (arguments inner' (target.rename ρ) owner) := by
  refine .next _ fun count => Maps.bind (f := List.map (Binding.rename ρ))
    (.iterate (fun bs => (binding_maps hinner target owner bs).bind_pure fun b => ?_) _ [])
    fun bound => ?_
  · rw [List.map_append, List.map_singleton]
  · simp only [firstUnbound?_rename]
    cases Domain.all.findSome? (firstUnbound? target bound) with
    | some name => exact .fail _ _
    | none => exact .pure (Binding.arrange_rename ρ bound)

end CallSites

/-! ### Expressions -/

theorem enumerationOf_eq {symbols symbols' : Symbols σ} (h : symbols.Renames ρ symbols')
    (name : Word) (id : EnumId) :
    enumerationOf symbols' name (ρ.enumeration id) = enumerationOf symbols name id := by
  rw [enumerationOf, h.enumeration?_eq id, enumerationOf]

theorem agree_maps {symbols symbols' : Symbols σ} (h : symbols.Renames ρ symbols') (name : Word)
    (d : Domain) (expected : Option d.Typing) (found : d.Typing) :
    Maps id (agree symbols name d expected found)
      (agree symbols' name d (expected.map (ρ.typing d)) (ρ.typing d found)) := by
  rw [Maps, id_map]
  cases d with
  | decimal | boolean => cases expected <;> rfl
  | enumerated =>
    cases expected with
    | none => rfl
    | some id =>
      simp only [agree, Option.map_some, Renaming.typing_enumerated, enumerationOf_eq h,
        ρ.enumeration.injective.eq_iff]

theorem literal_maps {symbols symbols' : Symbols σ} (h : symbols.Renames ρ symbols') (d : Domain)
    (expected : Option d.Typing) :
    Maps (Expr.rename ρ) (literal symbols d expected)
      (literal symbols' d (expected.map (ρ.typing d))) := by
  cases d with
  | decimal | boolean => exact .next _ fun _ => .pure rfl
  | enumerated =>
    refine .next _ fun element => ?_
    cases expected with
    | none => exact .fail _ _
    | some id =>
      rw [Option.map_some, Renaming.typing_enumerated]
      dsimp only
      rw [enumerationOf_eq h]
      refine .next _ fun (name, elements) => ?_
      dsimp only
      cases elements.get? element.text with
      | none => exact .fail _ _
      | some x => exact .pure (by rw [Expr.rename]; rfl)

section Expressions

variable {scope scope' : Scope σ} (hscope : scope.Renames ρ scope')

include hscope

theorem formed_maps {inner inner' : ExprReader}
    (hinner : ∀ d t, Maps (Expr.rename ρ) (inner d t) (inner' d (t.map (ρ.typing d)))) (tag : Word)
    {d : Domain} (expected : Option d.Typing) (form : Expr.Form d) :
    Maps (Expr.rename ρ) (formed scope inner tag expected form)
      (formed scope' inner' tag (expected.map (ρ.typing d)) form) := by
  have hoperand : ∀ sign d t, Maps (Expr.rename ρ) (formed.operand inner tag sign d t)
      (formed.operand inner' tag sign d (t.map (ρ.typing d))) :=
    fun sign d t => .within _ _ (hinner d t)
  cases form with
  | literal => exact literal_maps hscope.symbols d expected
  | parameter =>
    refine .next _ fun name => ?_
    rw [hscope.parameters, Parameters.get_rename]
    refine (Maps.resolve (Registry.moves_map _ _) _ _).bind fun p => ?_
    refine (agree_maps hscope.symbols name d expected _).bind fun _ => .pure ?_
    rw [Expr.rename]
    rfl
  | input =>
    refine .next _ fun name => (Maps.resolve (hscope.symbols.inputs d) _ _).bind fun p => ?_
    refine (agree_maps hscope.symbols name d expected _).bind fun _ => ?_
    refine (arguments_maps hinner p.2.parameters name.text).bind_pure fun bindings => ?_
    rw [Expr.rename, Binding.renameAll_eq]
    rfl
  | output =>
    refine .next _ fun name => (Maps.resolve (hscope.symbols.outputs d) _ _).bind fun p => ?_
    refine (agree_maps hscope.symbols name d expected _).bind fun _ => .pure ?_
    rw [Expr.rename]
    rfl
  | choice =>
    refine (hinner .boolean none).bind fun condition => (hinner d expected).bind fun yes => ?_
    rw [Expr.typing_rename]
    refine (hinner d (some yes.typing)).bind_pure fun no => ?_
    rw [Expr.rename]
  | arithmetic op =>
    refine (hoperand _ .decimal none).bind fun left => (hoperand _ .decimal none).bind_pure
      fun right => ?_
    rw [Expr.rename]
  | stateTime | optionTime | reachedTarget => exact .pure (by rw [Expr.rename])
  | connective op =>
    refine .next _ fun n => .check ?_
    refine (Maps.many (hoperand _ .boolean none) _).bind_pure fun operands => ?_
    rw [Expr.rename, Expr.renameAll_eq]
  | not =>
    refine (hoperand _ .boolean none).bind_pure fun operand => ?_
    rw [Expr.rename]
  | relation op =>
    refine (hoperand _ .decimal none).bind fun left => (hoperand _ .decimal none).bind_pure
      fun right => ?_
    rw [Expr.rename]
  | sameElement =>
    refine (hoperand _ .enumerated none).bind fun left => ?_
    rw [Expr.typing_rename]
    refine (hoperand _ .enumerated (some left.typing)).bind_pure fun right => ?_
    rw [Expr.rename]

theorem expression_maps (n : Nat) (d : Domain) (expected : Option d.Typing) :
    Maps (Expr.rename ρ) (expression scope n d expected)
      (expression scope' n d (expected.map (ρ.typing d))) := by
  induction n generalizing d with
  | zero =>
    rw [expression, expression, hscope.limits]
    exact .tooDeep _
  | succ n ih =>
    refine .next _ fun tag => ?_
    cases tag.tag?.bind (Expr.Form.ofTag? d) with
    | none => exact .unknownTag _ _
    | some form => exact formed_maps hscope ih tag expected form

/-! ### States -/

theorem statement_maps (n : Nat) :
    Maps (Statement.rename ρ) (statement scope n) (statement scope' n) := by
  induction n with
  | zero =>
    rw [statement, statement, hscope.limits]
    exact .tooDeep _
  | succ n ih =>
    refine .next _ fun tag => ?_
    split
    · rw [hscope.states]
      refine .next _ fun name => .next _ fun found => .pure ?_
      rw [Statement.rename]
    · refine (expression_maps hscope n .boolean none).bind fun condition => ih.bind fun yes =>
        ih.bind_pure fun no => ?_
      rw [Statement.toAlternative_rename, Statement.rename]
    · exact .unknownTag _ _

theorem action_maps : Maps (Action.rename ρ) (action scope) (action scope') := by
  have hexpression := expression_maps hscope scope.limits.nestingDepth
  unfold action
  rw [hscope.limits]
  refine .next _ fun tag => .next _ fun name => ?_
  cases tag.tag?.bind ActionForm.ofTag? with
  | none => exact .unknownTag _ _
  | some form =>
    cases form with
    | activate =>
      simp only [hscope.options]
      refine (Maps.resolve (Registry.moves_map _ _) _ _).bind fun p => ?_
      exact (Maps.within _ _ (arguments_maps hexpression p.2.parameters _)).bind_pure fun _ => rfl
    | behave =>
      refine (Maps.resolve hscope.behaviors _ _).bind fun p => ?_
      exact (Maps.within _ _ (arguments_maps hexpression p.2.parameters _)).bind_pure fun _ => rfl
    | assign d =>
      refine (Maps.resolve (hscope.symbols.outputs d) _ _).bind fun p => ?_
      exact (Maps.within _ _ (hexpression d (some p.2.typing))).bind_pure fun _ => rfl

theorem state_maps : Maps (Graph.State.rename ρ) (state scope) (state scope') := by
  unfold state
  rw [hscope.limits]
  refine .next _ fun isTarget => .next _ fun n => ?_
  exact (Maps.many (action_maps hscope) _).bind fun actions =>
    (statement_maps hscope _).bind_pure fun decision => rfl

theorem namedState_maps (expected : String) :
    Maps (Graph.State.rename ρ) (namedState scope expected) (namedState scope' expected) :=
  .next _ fun _ => .check (.within _ _ (state_maps hscope))

end Expressions

/-! ### Options -/

section Options

variable {environment environment' : Environment σ}
  (henvironment : environment.Renames ρ environment')

include henvironment

theorem typing_maps (d : Domain) :
    Maps (ρ.typing d) (parameter.typing environment.symbols d)
      (parameter.typing environment'.symbols d) := by
  cases d with
  | decimal | boolean => exact .pure rfl
  | enumerated =>
    refine .next _ fun name => ?_
    exact (Maps.resolve henvironment.symbols.enumerations _ _).bind_pure fun _ => rfl

theorem parameter_maps (ps : Parameters Unit) :
    Maps (Parameters.rename ρ) (parameter environment.symbols ps)
      (parameter environment'.symbols (ps.rename ρ)) := by
  refine .next _ fun tag => ?_
  cases tag.tag?.bind Domain.ofTag? with
  | none => exact .unknownTag _ _
  | some d =>
    refine (typing_maps henvironment d).bind fun typing => .next _ fun name => ?_
    rw [Parameters.get_rename]
    refine (Maps.append _ (ps.get d) name (⟨typing, ()⟩ : Parameter Unit d)).bind_pure fun r => ?_
    exact (Parameters.set_rename ρ ps d r).symm

theorem header_maps (headers : Registry Header) :
    Maps (Registry.map (Header.rename ρ)) (header environment.symbols headers)
      (header environment'.symbols (headers.map (Header.rename ρ))) := by
  refine .next _ fun name => .next _ fun n => ?_
  refine Maps.bind (f := Parameters.rename ρ) ?_ fun parameters => .append _ _ _ _
  exact .iterate (parameter_maps henvironment) _ Parameters.none

theorem body_maps (limits : Limits) (options : Registry Header) (parameters : Parameters Unit) :
    Maps (Graph.Node.rename ρ) (body limits environment options parameters)
      (body limits environment' (options.map (Header.rename ρ)) (parameters.rename ρ)) := by
  refine .next _ fun n => .next _ fun names => .next _ fun name => .next _ fun initial => ?_
  have hscope : Scope.Renames ρ
      ⟨limits, environment.symbols, environment.behaviors, options, parameters, names⟩
      ⟨limits, environment'.symbols, environment'.behaviors, options.map (Header.rename ρ),
        parameters.rename ρ, names⟩ :=
    ⟨rfl, henvironment.symbols, henvironment.behaviors, rfl, rfl, rfl⟩
  have hstates := Maps.mapM (f := id) (namedState_maps hscope) names.names
  rw [List.map_id] at hstates
  refine hstates.bind_pure fun states => ?_
  rw [Registry.withValues_map]
  rfl

theorem namedBody_maps (limits : Limits) (options : Registry Header) (expected : String × Header) :
    Maps (Graph.Node.rename ρ) (namedBody limits environment options expected)
      (namedBody limits environment' (options.map (Header.rename ρ))
        (expected.1, expected.2.rename ρ)) :=
  .next _ fun _ => .check (.within _ _ (body_maps henvironment limits options _))

omit henvironment in
theorem agent_maps (options : Registry Header) (agents : Registry Nat) :
    Maps id (agent options agents) (agent (options.map (Header.rename ρ)) agents) := by
  refine .next _ fun name => .next _ fun root => ?_
  refine (Maps.within _ _ (Maps.resolve (Registry.moves_map (Header.rename ρ) options) _ _)).bind
    fun p => ?_
  exact (id_map _).symm

theorem graph_maps (limits : Limits) :
    Maps (Graph.rename ρ) (graph limits environment) (graph limits environment') := by
  refine .next _ fun n => .check ?_
  refine Maps.bind (f := Registry.map (Header.rename ρ))
    (.iterate (header_maps henvironment) _ Registry.empty) fun headers => ?_
  refine Maps.bind (Maps.mapM (f := fun e => (e.1, e.2.rename ρ))
    (namedBody_maps henvironment limits headers) headers.entries) fun nodes => .next _ fun m => ?_
  refine Maps.bind (f := id) (.iterate (agent_maps headers) _ Registry.empty) fun agents =>
    .next _ fun _ => .pure ?_
  rw [Registry.map_withValues, Registry.withValues_map]
  rfl

end Options

end Construct

/-- **The same source describes the same graph**, or is refused for the same error, whatever the
order of registration. -/
theorem Graph.ofSource_rename {σ : Type} {ρ : Renaming} {environment environment' : Environment σ}
    (h : environment.Renames ρ environment') (limits : Limits) (source : String) :
    Graph.ofSource limits environment' source =
      (Graph.ofSource limits environment source).map (Graph.rename ρ) := by
  rw [ofSource, ofSource, Construct.graph_maps h limits, Construct.map_runOn]

end BehaviorEngine
