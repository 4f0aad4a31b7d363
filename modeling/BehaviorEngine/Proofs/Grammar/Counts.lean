import BehaviorEngine.Proofs.Grammar.Programs
import BehaviorEngine.Proofs.Grammar.Reading

/-!
The counts of a sentence, each with the number of the items that are written after it. In a sentence
that denotes a graph every count tells this number. An item takes at least one word, and the counts
themselves are words too; so all counts of a sentence together are less than its words.
-/

namespace BehaviorEngine

namespace Grammar

variable {σ : Type}

/-! ### Counts as they are written -/

mutual

/-- The counts in an expression, with the numbers of items. -/
def Term.counts : {d : Domain} → Term d → List (String × Nat)
  | _, .literal _ => []
  | _, .constant _ => []
  | _, .parameter _ => []
  | _, .input _ count arguments => (count, arguments.length) :: Assignment.allCounts arguments
  | _, .output _ => []
  | _, .choice condition yes no => condition.counts ++ (yes.counts ++ no.counts)
  | _, .arithmetic _ left right => left.counts ++ right.counts
  | _, .stateTime => []
  | _, .optionTime => []
  | _, .connective _ count operands => (count, operands.length) :: Term.allCounts operands
  | _, .not operand => operand.counts
  | _, .relation _ left right => left.counts ++ right.counts
  | _, .sameElement left right => left.counts ++ right.counts
  | _, .reachedTarget => []
termination_by structural _ t => t

/-- The counts in expressions that follow one another. -/
def Term.allCounts : List (Term .boolean) → List (String × Nat)
  | [] => []
  | t :: ts => t.counts ++ Term.allCounts ts
termination_by structural ts => ts

/-- The counts in bindings that follow one another. -/
def Assignment.allCounts : List Assignment → List (String × Nat)
  | [] => []
  | .mk _ _ value :: rest => value.counts ++ Assignment.allCounts rest
termination_by structural bs => bs

end

/-- The counts in a decision tree. -/
def Tree.counts : Tree → List (String × Nat)
  | goto _ => []
  | branch condition yes no => condition.counts ++ (yes.counts ++ no.counts)

/-- The counts in an action. -/
def Deed.counts : Deed → List (String × Nat)
  | activate _ count arguments => (count, arguments.length) :: Assignment.allCounts arguments
  | behave _ count arguments => (count, arguments.length) :: Assignment.allCounts arguments
  | assign _ _ value => value.counts

/-- The counts in a state. -/
def State.counts (s : State) : List (String × Nat) :=
  (s.count, s.deeds.length) :: (s.deeds.flatMap Deed.counts ++ s.decision.counts)

/-- The count in a header. -/
def Heading.counts (h : Heading) : List (String × Nat) := [(h.count, h.parameters.length)]

/-- The counts in the body of an option. The first one is that of the names of the states and of the
states themselves. -/
def Body.counts (b : Body) : List (String × Nat) :=
  (b.count, b.names.length) :: (b.count, b.states.length) :: b.states.flatMap State.counts

/-- **The counts in a sentence**, each with the number of the items that are written after it. The
first one is that of the headers and of the bodies. -/
def Sentence.counts (s : Sentence) : List (String × Nat) :=
  (s.count, s.headings.length) :: (s.count, s.bodies.length) ::
    (s.headings.flatMap Heading.counts ++ (s.bodies.flatMap Body.counts ++
      [(s.agentCount, s.agents.length)]))

/-! ### Counts tell how many items there are -/

/-- Every count tells the number of items. -/
def Exact (counts : List (String × Nat)) : Prop := ∀ p ∈ counts, readCount? p.1 = some p.2

theorem exact_nil : Exact [] := nofun

theorem exact_cons {p : String × Nat} {ps : List (String × Nat)} :
    Exact (p :: ps) ↔ readCount? p.1 = some p.2 ∧ Exact ps := List.forall_mem_cons

theorem exact_append {ps qs : List (String × Nat)} : Exact (ps ++ qs) ↔ Exact ps ∧ Exact qs :=
  List.forall_mem_append

theorem exact_flatMap {α : Type} {f : α → List (String × Nat)} {xs : List α} :
    Exact (xs.flatMap f) ↔ ∀ x ∈ xs, Exact (f x) := by
  simp only [Exact, List.mem_flatMap]
  constructor
  · intro h x hx p hp
    exact h p ⟨x, hx, hp⟩
  · rintro h p ⟨x, hx, hp⟩
    exact h x hx p hp

/-- **The counts of an expression that denotes something are exact.** -/
theorem Term.Denotes.exact {c : Context σ} {d : Domain} {expected : Option d.Typing}
    {t : Term d} {e : Expr d} (h : t.Denotes c expected e) : Exact t.counts := by
  refine @Term.Denotes.rec σ c (fun _ t _ _ => Exact t.counts)
    (fun ts _ _ => Exact (Term.allCounts ts)) (fun _ as _ _ => Exact (Assignment.allCounts as))
    ?decimal ?constant ?yes ?no ?element ?parameter ?input ?output ?choice ?arithmetic ?stateTime
    ?optionTime ?connective ?not ?relation ?sameElement ?reachedTarget ?noOperand ?operand
    ?noBinding ?binding d expected t e h
  case decimal | constant | yes | no | element | stateTime | optionTime | reachedTarget |
      parameter | output | noOperand | noBinding =>
    intros
    exact exact_nil
  case input =>
    intro _ _ _ _ _ _ _ _ _ _ hc _ _ hexact
    exact exact_cons.2 ⟨hc, hexact⟩
  case choice =>
    intro _ _ _ _ _ _ _ _ _ _ _ hc hy hn
    exact exact_append.2 ⟨hc, exact_append.2 ⟨hy, hn⟩⟩
  case arithmetic | relation =>
    intro _ _ _ _ _ _ _ _ hl hr
    exact exact_append.2 ⟨hl, hr⟩
  case sameElement =>
    intro _ _ _ _ _ _ _ hl hr
    exact exact_append.2 ⟨hl, hr⟩
  case connective =>
    intro _ _ _ _ _ hc _ _ hexact
    exact exact_cons.2 ⟨hc, hexact⟩
  case not =>
    intro _ _ _ _ hexact
    exact hexact
  case operand =>
    intro _ _ _ _ _ _ h hs
    exact exact_append.2 ⟨h, hs⟩
  case binding =>
    intro _ _ _ _ _ _ _ _ _ _ _ _ _ hv hs
    exact exact_append.2 ⟨hv, hs⟩

theorem Assignment.AllDenote.exact {c : Context σ} {slot : Type} {target : Parameters slot}
    {as : List Assignment} {bs : List Binding} (h : Assignment.AllDenote c target as bs) :
    Exact (Assignment.allCounts as) := by
  induction as generalizing bs with
  | nil => exact exact_nil
  | cons a as ih =>
    cases h with
    | cons _ hv hs => exact exact_append.2 ⟨hv.exact, ih hs⟩

theorem Call.exact {c : Context σ} {slot : Type} {target : Parameters slot} {count : String}
    {as : List Assignment} {bs : List Binding} (h : Call c target count as bs) :
    Exact ((count, as.length) :: Assignment.allCounts as) :=
  exact_cons.2 ⟨h.count, h.arguments.exact⟩

theorem Tree.Denotes.exact {c : Context σ} {t : Tree} {s : Statement} (h : t.Denotes c s) :
    Exact t.counts := by
  induction h with
  | goto => exact exact_nil
  | branch hc _ _ hy hn => exact exact_append.2 ⟨hc.exact, exact_append.2 ⟨hy, hn⟩⟩

theorem Deed.Denotes.exact {c : Context σ} {x : Deed} {a : Action} (h : x.Denotes c a) :
    Exact x.counts := by
  cases h with
  | activate _ hb => exact hb.exact
  | behave _ hb => exact hb.exact
  | assign _ hv => exact hv.exact

theorem State.Denotes.exact {c : Context σ} {s : State} {state : Graph.State}
    (h : s.Denotes c state) : Exact s.counts := by
  refine exact_cons.2 ⟨h.count, exact_append.2 ⟨exact_flatMap.2 fun x hx => ?_, h.decision.exact⟩⟩
  obtain ⟨a, -, hxa⟩ := exists_of_forall₂ h.deeds.flip hx
  exact hxa.exact

theorem Body.Denotes.exact {environment : Environment σ} {options : Registry (Parameters Unit)}
    {b : Body} {node : Graph.Node} (h : b.Denotes environment options node) : Exact b.counts := by
  have hlength : b.states.length = b.names.length := by
    rw [← h.order, List.length_map]
  refine exact_cons.2 ⟨h.count, exact_cons.2 ⟨?_, exact_flatMap.2 fun s hs => ?_⟩⟩
  · rw [hlength]
    exact h.count
  · obtain ⟨state, -, hstate⟩ := exists_of_forall₂ h.states.flip hs
    exact hstate.exact

/-- **The counts of a sentence that denotes a graph are exact.** -/
theorem Sentence.Denotes.exact {environment : Environment σ} {s : Sentence} {g : Graph}
    (h : s.Denotes environment g) : Exact s.counts := by
  have hlength : s.bodies.length = s.headings.length := by
    have hnames := congrArg List.length h.order
    rwa [List.length_map, List.length_map] at hnames
  refine exact_cons.2 ⟨h.count, exact_cons.2 ⟨?bodies, exact_append.2 ⟨?headings,
    exact_append.2 ⟨?states, exact_cons.2 ⟨h.agentCount, exact_nil⟩⟩⟩⟩⟩
  case bodies =>
    rw [hlength]
    exact h.count
  case headings =>
    refine exact_flatMap.2 fun x hx => ?_
    obtain ⟨ps, -, hps⟩ := exists_of_forall₂ h.headings.flip hx
    exact exact_cons.2 ⟨hps.count, exact_nil⟩
  case states =>
    refine exact_flatMap.2 fun b hb => ?_
    obtain ⟨node, -, hnode⟩ := exists_of_forall₂ h.bodies.flip hb
    exact hnode.exact

/-! ### Counts are less than words -/

/-- The number of items that all counts together tell. -/
def total : List (String × Nat) → Nat
  | [] => 0
  | p :: ps => p.2 + total ps

@[simp] theorem total_nil : total [] = 0 := rfl

@[simp] theorem total_cons (p : String × Nat) (ps : List (String × Nat)) :
    total (p :: ps) = p.2 + total ps := rfl

@[simp] theorem total_append (ps qs : List (String × Nat)) :
    total (ps ++ qs) = total ps + total qs := by
  induction ps with
  | nil => rw [List.nil_append, total_nil, Nat.zero_add]
  | cons p ps ih => rw [List.cons_append, total_cons, total_cons, ih, Nat.add_assoc]

theorem le_total {counts : List (String × Nat)} {p : String × Nat} (h : p ∈ counts) :
    p.2 ≤ total counts := by
  induction counts with
  | nil => cases h
  | cons q qs ih =>
    rw [total_cons]
    rcases List.mem_cons.1 h with rfl | h
    · omega
    · have hle := ih h
      omega

/-- If the counts in each item are less than its words, then there is a word left to count the item
itself. -/
theorem total_flatMap_le {α : Type} (counts : α → List (String × Nat)) (words : α → List String)
    (xs : List α) (h : ∀ x ∈ xs, total (counts x) < (words x).length) :
    total (xs.flatMap counts) + xs.length ≤ (xs.flatMap words).length := by
  induction xs with
  | nil => simp only [List.flatMap_nil, total_nil, List.length_nil, Nat.zero_add, Nat.le_refl]
  | cons x xs ih =>
    have hx := h x List.mem_cons_self
    have hxs := ih fun y hy => h y (List.mem_cons_of_mem _ hy)
    simp only [List.flatMap_cons, total_append, List.length_cons, List.length_append]
    omega

mutual

theorem Term.total_lt : {d : Domain} → (t : Term d) → total t.counts < t.words.length
  | _, .literal _ | _, .constant _ | _, .parameter _ | _, .output _ | _, .stateTime
  | _, .optionTime | _, .reachedTarget => by
    simp [Term.counts, Term.words]
  | _, .input _ _ arguments => by
    have h := Assignment.allTotal_le arguments
    simp only [Term.counts, Term.words, total_cons, List.length_cons]
    omega
  | _, .choice condition yes no => by
    have hc := condition.total_lt
    have hy := yes.total_lt
    have hn := no.total_lt
    simp only [Term.counts, Term.words, total_append, List.length_cons, List.length_append]
    omega
  | _, .arithmetic _ left right | _, .relation _ left right | _, .sameElement left right => by
    have hl := left.total_lt
    have hr := right.total_lt
    simp only [Term.counts, Term.words, total_append, List.length_cons, List.length_append]
    omega
  | _, .connective _ _ operands => by
    have h := Term.allTotal_le operands
    simp only [Term.counts, Term.words, total_cons, List.length_cons]
    omega
  | _, .not operand => by
    have h := operand.total_lt
    simp only [Term.counts, Term.words, List.length_cons]
    omega
termination_by structural _ t => t

theorem Term.allTotal_le : (ts : List (Term .boolean)) →
    total (Term.allCounts ts) + ts.length ≤ (Term.allWords ts).length
  | [] => by simp [Term.allCounts, Term.allWords]
  | t :: ts => by
    have h := t.total_lt
    have hs := Term.allTotal_le ts
    simp only [Term.allCounts, Term.allWords, total_append, List.length_cons, List.length_append]
    omega
termination_by structural ts => ts

theorem Assignment.allTotal_le : (as : List Assignment) →
    total (Assignment.allCounts as) + as.length ≤ (Assignment.allWords as).length
  | [] => by simp [Assignment.allCounts, Assignment.allWords]
  | .mk _ _ value :: rest => by
    have h := value.total_lt
    have hs := Assignment.allTotal_le rest
    simp only [Assignment.allCounts, Assignment.allWords, total_append, List.length_cons,
      List.length_append]
    omega
termination_by structural as => as

end

theorem Tree.total_lt (t : Tree) : total t.counts < t.words.length := by
  induction t with
  | goto => simp [counts, words]
  | branch condition yes no hy hn =>
    have hc := condition.total_lt
    simp only [counts, words, total_append, List.length_cons, List.length_append]
    omega

theorem Deed.total_lt (x : Deed) : total x.counts < x.words.length := by
  cases x with
  | activate _ _ arguments | behave _ _ arguments =>
    have h := Assignment.allTotal_le arguments
    rw [Assignment.allWords_eq] at h
    simp only [counts, words, total_cons, List.length_cons]
    omega
  | assign _ _ value =>
    have h := value.total_lt
    simp only [counts, words, List.length_cons]
    omega

theorem State.total_lt (s : State) : total s.counts < s.words.length := by
  have hdeeds := total_flatMap_le Deed.counts Deed.words s.deeds fun x _ => x.total_lt
  have hdecision := s.decision.total_lt
  simp only [counts, words, total_cons, total_append, List.length_cons, List.length_append]
  omega

theorem Heading.total_lt (h : Heading) : total h.counts < h.words.length := by
  have hparameters := total_flatMap_le (fun _ => []) Declaration.words h.parameters fun x _ => by
    cases x <;> simp [Declaration.words]
  simp only [counts, words, total_cons, total_nil, List.length_cons]
  omega

theorem Body.total_lt (b : Body) : total b.counts < b.words.length := by
  have hstates := total_flatMap_le State.counts State.words b.states fun s _ => s.total_lt
  simp only [counts, words, total_cons, List.length_cons, List.length_append]
  omega

/-- **All counts of a sentence together are less than its words.** -/
theorem Sentence.total_lt (s : Sentence) : total s.counts < s.words.length := by
  have hheadings := total_flatMap_le Heading.counts Heading.words s.headings fun h _ => h.total_lt
  have hbodies := total_flatMap_le Body.counts Body.words s.bodies fun b _ => b.total_lt
  have hagents := total_flatMap_le (fun _ => []) Agent.words s.agents fun a _ => by
    simp [Agent.words]
  simp only [counts, words, total_cons, total_append, total_nil, List.length_cons,
    List.length_append]
  omega

end Grammar

end BehaviorEngine
