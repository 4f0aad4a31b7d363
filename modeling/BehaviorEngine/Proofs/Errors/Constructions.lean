import BehaviorEngine.Proofs.Registry
import BehaviorEngine.Proofs.Errors.Reading

/-!
All constructions blame what they read: of each it is shown that its errors stand at or behind the
last word that was read before it, and that the nodes around them are named behind that word.

A construction that is handed a word it did not read itself, a tag or a name, may blame that word
too; then the bound is in front of the word.
-/

namespace BehaviorEngine

/-- A word of a source that was read behind an offset `k`, and not behind an offset `j`. -/
structure Word.ReadBetween (source : String) (k j : Nat) (w : Word) : Prop where
  word : Source.HasWord source w
  behind : k < w.span.start
  reached : w.span.start ≤ j

theorem Word.ReadBetween.mono {source : String} {k j i : Nat} {w : Word}
    (h : w.ReadBetween source k j) (hj : j ≤ i) : w.ReadBetween source k i :=
  { h with reached := h.reached.trans hj }

namespace Construct

variable {source : String} {k j : Nat} {σ slot α β : Type} {A : Nat → α → Prop} {w : Word}

/-! ### Blame -/

/-- A construction that blames what it reads, where more has been read before it. -/
theorem Blames.meets {x : Construct α} (h : Blames source x) (hk : k ≤ j) :
    Meets source j (fun _ _ => True) (·.Since source k) x :=
  (h j).errors fun _ he => he.mono hk

namespace Meets

/-- A further word, after which errors still are behind `k`. -/
theorem next {f : Word → Construct α} (hk : k ≤ j)
    (h : ∀ w, w.ReadBetween source k w.span.start → j < w.span.start →
      Meets source w.span.start A (·.Since source k) (f w)) :
    Meets source j A (·.Since source k) (Construct.word >>= f) :=
  word_bind (fun _ he => he.mono hk) fun w hw hj => h w ⟨hw, hk.trans_lt hj, le_rfl⟩ hj

/-- A word that was read is blamed by a cause that repeats it. -/
theorem blame {cause : Cause} (hw : w.ReadBetween source k j)
    (hquoted : cause.quoted? = some w.text) (hstray : ∀ text, cause ≠ .unrecognizedInput text) :
    Meets source j A (·.Since source k) (Construct.fail cause w.span) := by
  have hend : cause ≠ .unexpectedEnd := by
    rintro rfl
    cases hquoted
  have hsuits : cause.Suits w := by
    refine ⟨fun text h => Option.some_inj.1 (h.symm.trans hquoted), ?_⟩
    rintro length limit rfl
    cases hquoted
  exact fail (.of_place (.word hw.word hend hstray hsuits) hw.behind.le)

/-- A word that was read is blamed by a cause that repeats nothing. -/
theorem blame_silently {cause : Cause} (hw : w.ReadBetween source k j)
    (hquoted : cause.quoted? = none) (hend : cause ≠ .unexpectedEnd)
    (hlength : ∀ length limit, cause ≠ .wordTooLong length limit) :
    Meets source j A (·.Since source k) (Construct.fail cause w.span) := by
  have hstray : ∀ text, cause ≠ .unrecognizedInput text := by
    rintro text rfl
    cases hquoted
  have hsuits : cause.Suits w :=
    ⟨fun text h => (nomatch h.symm.trans hquoted), fun _ _ h => absurd h (hlength _ _)⟩
  exact fail (.of_place (.word hw.word hend hstray hsuits) hw.behind.le)

/-- A node named by a word that was read is put around what follows it. -/
theorem around {node : Enclosing} {x : Construct α} (hw : w.ReadBetween source k j)
    (hnode : node.isDeclaration = false) (h : Meets source j A (·.Since source w.span.start) x) :
    Meets source j A (·.Since source k) (Construct.within node w.span x) :=
  h.within fun _ he => he.within hw.word hw.behind hnode

theorem unknownTag {position : TagPosition} (hw : w.ReadBetween source k j) :
    Meets source j A (·.Since source k) (Construct.unknownTag position w) :=
  blame hw rfl nofun

theorem resolve {kind : NameKind} {r : Registry α} (hw : w.ReadBetween source k j) :
    Meets source j (fun _ _ => True) (·.Since source k) (Construct.resolve kind r w) := by
  unfold Construct.resolve
  split
  · exact pure fun _ _ => trivial
  · exact blame hw rfl nofun

theorem append {kind : NameKind} {r : Registry α} {x : α} (hw : w.ReadBetween source k j) :
    Meets source j (fun _ s => s.entries = r.entries ++ [(w.text, x)]) (·.Since source k)
      (Construct.append kind r w x) := by
  unfold Construct.append
  by_cases hmem : w.text ∈ r.names
  · rw [Registry.append_of_mem hmem]
    exact blame hw rfl nofun
  · obtain ⟨s, hs, he⟩ := Registry.append_of_notMem hmem x
    rw [hs]
    exact pure fun _ _ => he

/-- A sequence that begins with a count, whose place is the word that it was read from. -/
theorem count_bind {f : Nat × Span → Construct α} (hk : k ≤ j)
    (h : ∀ n (w : Word), w.ReadBetween source k w.span.start → j < w.span.start →
      Meets source w.span.start A (·.Since source k) (f (n, w.span))) :
    Meets source j A (·.Since source k) (Construct.count >>= f) := by
  unfold Construct.count
  rw [bind_assoc]
  refine next hk fun w hw hj => ?_
  unfold Reader.countOf
  cases readCount? w.text with
  | none =>
    change Meets source _ A _ (Construct.fail (.invalidCount w.text) w.span)
    exact blame hw rfl nofun
  | some n => exact h n w hw hj

end Meets

theorem count_blames : Blames source count := by
  intro k
  rw [← bind_pure count]
  exact .count_bind le_rfl fun _ _ _ _ => .pure fun _ _ => trivial

/-! ### Call sites -/

section Expressions

variable {inner : ExprReader}

theorem binding_blames (hinner : ∀ d τ, Blames source (inner d τ)) (target : Parameters slot)
    (owner : String) (bound : List Binding) : Blames source (binding inner target owner bound) := by
  intro k
  refine .next le_rfl fun tag htag _ => .next htag.behind.le fun name hname hlt => ?_
  split
  · exact .unknownTag (htag.mono hlt.le)
  · refine (Meets.resolve hname).seq fun ⟨index, parameter⟩ => ?_
    refine .check (fun _ => ?_) ?_
    · exact .blame hname rfl nofun
    · exact (Meets.around hname rfl (hinner _ _ _)).seq_pure

theorem arguments_blames (hinner : ∀ d τ, Blames source (inner d τ)) (target : Parameters slot)
    (owner : String) : Blames source (arguments inner target owner) := by
  intro k
  refine .count_bind le_rfl fun n span hspan _ => ?_
  have hbinding : ∀ bs, Meets source span.span.start (fun _ _ => True) (·.Since source k)
      (do return bs ++ [← binding inner target owner bs]) := fun bs =>
    ((binding_blames hinner target owner bs).meets hspan.behind.le).seq_pure
  refine (Meets.iterate_seq hbinding n []).seq fun bound => ?_
  split
  · exact .blame_silently hspan rfl nofun nofun
  · exact .pure fun _ _ => trivial

/-! ### Expressions -/

theorem enumerationOf_blames {name : Word} (hname : name.ReadBetween source k j)
    (symbols : Symbols σ) (id : EnumId) :
    Meets source j (fun _ _ => True) (·.Since source k) (enumerationOf symbols name id) := by
  unfold enumerationOf
  split
  · exact .pure fun _ _ => trivial
  · exact .blame hname rfl nofun

theorem agree_blames {name : Word} (hname : name.ReadBetween source k j) (symbols : Symbols σ)
    (d : Domain) (expected : Option d.Typing) (found : d.Typing) :
    Meets source j (fun _ _ => True) (·.Since source k) (agree symbols name d expected found) := by
  unfold agree
  split
  · split
    · exact .pure fun _ _ => trivial
    · exact (enumerationOf_blames hname symbols _).seq fun _ =>
        (enumerationOf_blames hname symbols _).seq fun _ =>
          .blame_silently hname rfl nofun nofun
  · exact .pure fun _ _ => trivial

theorem value_blames : Blames source value := by
  intro k
  refine .next le_rfl fun w hw _ => ?_
  unfold Reader.valueOf
  split
  · exact .pure fun _ _ => trivial
  · exact .blame hw rfl nofun

theorem truth_blames : Blames source truth := by
  intro k
  refine .next le_rfl fun w hw _ => ?_
  split
  · exact .pure fun _ _ => trivial
  · exact .pure fun _ _ => trivial
  · exact .blame hw rfl nofun

theorem literal_blames (symbols : Symbols σ) (d : Domain) (expected : Option d.Typing) :
    Blames source (literal symbols d expected) := by
  intro k
  cases d with
  | decimal => exact (value_blames k).seq_pure
  | boolean => exact (truth_blames k).seq_pure
  | enumerated =>
    refine .next le_rfl fun element helement _ => ?_
    cases expected with
    | none => exact .blame helement rfl nofun
    | some id =>
      refine (enumerationOf_blames helement symbols id).seq fun (name, elements) => ?_
      dsimp only
      split
      · exact .pure fun _ _ => trivial
      · exact .blame helement rfl nofun

/-- What follows a tag is blamed behind the tag, or the tag itself is. -/
theorem formed_blames (hinner : ∀ d τ, Blames source (inner d τ)) (scope : Scope σ) {tag : Word}
    (htag : tag.ReadBetween source k j) {d : Domain} (expected : Option d.Typing)
    (form : Expr.Form d) :
    Meets source j (fun _ _ => True) (·.Since source k)
      (formed scope inner tag expected form) := by
  have hkj : k ≤ j := htag.behind.le.trans htag.reached
  have hoperand : ∀ sign d τ, Meets source j (fun _ _ => True) (·.Since source k)
      (formed.operand inner tag sign d τ) := fun sign d τ =>
    .around htag rfl ((hinner d τ).meets htag.reached)
  cases form with
  | literal => exact (literal_blames scope.symbols d expected).meets hkj
  | parameter =>
    refine .next hkj fun name hname _ => (Meets.resolve hname).seq fun ⟨i, p⟩ => ?_
    exact (agree_blames hname scope.symbols d expected p.typing).seq_pure
  | input =>
    refine .next hkj fun name hname _ => (Meets.resolve hname).seq fun ⟨i, s⟩ => ?_
    refine (agree_blames hname scope.symbols d expected s.typing).seq fun _ => ?_
    exact ((arguments_blames hinner s.parameters name.text).meets hname.behind.le).seq_pure
  | output =>
    refine .next hkj fun name hname _ => (Meets.resolve hname).seq fun ⟨i, s⟩ => ?_
    exact (agree_blames hname scope.symbols d expected s.typing).seq_pure
  | choice =>
    refine ((hinner .boolean none).meets hkj).seq fun condition => ?_
    refine ((hinner d expected).meets hkj).seq fun yes => ?_
    exact ((hinner d (some yes.typing)).meets hkj).seq_pure
  | arithmetic op =>
    exact (hoperand op.sign .decimal none).seq fun left =>
      (hoperand op.sign .decimal none).seq_pure
  | stateTime | optionTime | reachedTarget => exact .pure fun _ _ => trivial
  | connective op =>
    refine .count_bind hkj fun n span hspan hlt => .check (fun _ => ?_) ?_
    · exact .blame_silently (htag.mono hlt.le) rfl nofun nofun
    · exact ((Meets.many (hoperand op.sign .boolean none) n).from_le hlt.le).seq_pure
  | not => exact (hoperand "!" .boolean none).seq_pure
  | relation op =>
    exact (hoperand op.sign .decimal none).seq fun left =>
      (hoperand op.sign .decimal none).seq_pure
  | sameElement =>
    exact (hoperand "==" .enumerated none).seq fun left =>
      (hoperand "==" .enumerated (some left.typing)).seq_pure

end Expressions

/-- The last word that was read asks for one level of nesting too many. -/
theorem tooDeep_blames (limits : Limits) : Blames source (tooDeep limits : Construct α) := by
  intro k c hc
  obtain ⟨w, hw, hlast⟩ := hc.last
  have hplace : Cause.StandsAt source (.nestingTooDeep limits.nestingDepth) c.last := by
    rw [hlast]
    exact .word hw nofun nofun ⟨nofun, nofun⟩
  exact .error (.of_place hplace hc.reached)

theorem expression_blames (scope : Scope σ) (n : Nat) (d : Domain) (expected : Option d.Typing) :
    Blames source (expression scope n d expected) := by
  induction n generalizing d with
  | zero => exact tooDeep_blames scope.limits
  | succ n ih =>
    intro k
    refine .next le_rfl fun tag htag _ => ?_
    split
    · exact .unknownTag htag
    · exact formed_blames ih scope htag expected _

/-! ### States -/

theorem statement_blames (scope : Scope σ) (n : Nat) : Blames source (statement scope n) := by
  induction n with
  | zero => exact tooDeep_blames scope.limits
  | succ n ih =>
    intro k
    refine .next le_rfl fun tag htag _ => ?_
    have hk : k ≤ tag.span.start := htag.behind.le
    split
    · refine .next hk fun name hname _ => ?_
      exact (Meets.resolve hname).seq_pure
    · refine ((expression_blames scope n .boolean none).meets hk).seq fun condition => ?_
      exact (ih.meets hk).seq fun yes => (ih.meets hk).seq_pure
    · exact .unknownTag htag

theorem action_blames (scope : Scope σ) : Blames source (action scope) := by
  intro k
  have hexpression (d : Domain) (expected : Option d.Typing) :
      Blames source (expression scope scope.limits.nestingDepth d expected) :=
    expression_blames scope scope.limits.nestingDepth d expected
  refine .next le_rfl fun tag htag _ => .next htag.behind.le fun name hname hlt => ?_
  split
  · exact .unknownTag (htag.mono hlt.le)
  · refine (Meets.resolve hname).seq fun ⟨i, header⟩ => ?_
    exact (Meets.around hname rfl (arguments_blames hexpression _ _ _)).seq_pure
  · refine (Meets.resolve hname).seq fun ⟨i, behavior⟩ => ?_
    exact (Meets.around hname rfl (arguments_blames hexpression _ _ _)).seq_pure
  · refine (Meets.resolve hname).seq fun ⟨i, symbol⟩ => ?_
    exact (Meets.around hname rfl (hexpression _ _ _)).seq_pure

theorem targetFlag_blames : Blames source targetFlag := by
  intro k
  refine .next le_rfl fun flag hflag _ => ?_
  split
  · exact .pure fun _ _ => trivial
  · exact .pure fun _ _ => trivial
  · exact .blame hflag rfl nofun

theorem state_blames (scope : Scope σ) : Blames source (state scope) := by
  intro k
  refine (targetFlag_blames k).seq fun isTarget => .count_bind le_rfl fun n span hspan _ => ?_
  have hk : k ≤ span.span.start := hspan.behind.le
  refine (Meets.many ((action_blames scope).meets hk) n).seq fun actions => ?_
  exact ((statement_blames scope _).meets hk).seq_pure

theorem namedState_blames (scope : Scope σ) (expected : String) :
    Blames source (namedState scope expected) := by
  intro k
  refine .next le_rfl fun name hname _ => .check (fun _ => ?_) ?_
  · exact .blame hname rfl nofun
  · exact .around hname rfl (state_blames scope _)

/-! ### Options -/

theorem typing_blames (symbols : Symbols σ) (d : Domain) :
    Blames source (parameter.typing symbols d) := by
  intro k
  cases d with
  | decimal | boolean => exact .pure fun _ _ => trivial
  | enumerated =>
    refine .next le_rfl fun name hname _ => ?_
    exact (Meets.resolve hname).seq_pure

theorem parameter_blames (symbols : Symbols σ) (ps : Parameters Unit) :
    Blames source (parameter symbols ps) := by
  intro k
  refine .next le_rfl fun tag htag _ => ?_
  have hk : k ≤ tag.span.start := htag.behind.le
  split
  · exact .unknownTag htag
  · refine ((typing_blames symbols _).meets hk).seq fun typing => .next hk fun name hname _ => ?_
    exact (Meets.append hname).seq_pure

theorem stateName_blames (names : Registry Unit) : Blames source (stateName names) := by
  intro k
  refine .next le_rfl fun name hname _ => ?_
  exact (Meets.append hname).results fun _ _ _ _ => trivial

theorem body_blames (limits : Limits) (environment : Environment σ) (options : Registry Header)
    (parameters : Parameters Unit) :
    Blames source (body limits environment options parameters) := by
  intro k
  refine .count_bind le_rfl fun n span hspan _ => ?_
  have hk : k ≤ span.span.start := hspan.behind.le
  refine (Meets.iterate_seq (fun names => (stateName_blames names).meets hk) n _).seq
    fun names => .next hk fun name hname _ => ?_
  refine (Meets.resolve hname).seq fun ⟨initial, _⟩ => ?_
  exact (Meets.mapM fun expected _ =>
    (namedState_blames _ expected).meets hname.behind.le).seq_pure

end Construct

end BehaviorEngine
