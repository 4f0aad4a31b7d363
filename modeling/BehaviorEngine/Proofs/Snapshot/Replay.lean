import BehaviorEngine.Proofs.Cycle.Trace
import BehaviorEngine.Proofs.Snapshot.Completion

/-!
Snapshots replay cycles. The walk of a snapshot does again what the cycle did, depth first from the
same root: what a cycle passes over because it has run, the walk passes over because it has visited
it. So the entries of a snapshot are those of the moments of the trace, in their order: one for each
option that was entered, each basic behavior that was asked to run and each assignment.
-/

namespace BehaviorEngine

open Partial

variable {σ : Type}

/-! ### Entries of moments -/

/-- The entry of a moment, if it has one. What option, state and times are shown is told by the
moment itself; the values are those that are found when the entry is made. -/
def Moment.shown? (p : Program σ) (options : List Activation) :
    Moment σ → StateT (World σ) Option (Option ActiveBehavior)
  | .enters depth i k time stateTime => do
    let node ← p.graph.options.at? i
    let name ← p.graph.options.name? i
    let stateName ← node.states.name? k
    let a ← options[i]?
    let parameters ← node.parameters.bound? p.environment.symbols a.parameters
    return some ⟨depth, .option name time stateName stateTime parameters⟩
  | .requests depth k => do
    let behavior ← p.environment.behaviors.at? k
    let name ← p.environment.behaviors.name? k
    let parameters ← behavior.parameters.inSlots? p.environment.symbols (← get)
    return some ⟨depth, .behavior name parameters⟩
  | .assigns depth (d := d) k expression _ => do
    let symbol ← (p.environment.symbols.outputs.get d).at? k
    let name ← (p.environment.symbols.outputs.get d).name? k
    let x ← modifyGet symbol.binding.read
    let value ← ShownValue.of? p.environment.symbols expression.typing x
    return some ⟨depth, .output name value⟩
  | .evaluates .. => return none
  | .behaves .. => return none
  | .selects .. => return none

section Entries

variable {p : Program σ} {options : List Activation} {w : World σ} {i k depth : Nat}

theorem Moment.shown?_enters {time stateTime : Nat} {node : Graph.Node} {name stateName : String}
    {a : Activation} {shown : List ShownParameter} (hnode : p.graph.options.at? i = some node)
    (hname : p.graph.options.name? i = some name) (hstate : node.states.name? k = some stateName)
    (ha : options[i]? = some a)
    (hshown : node.parameters.bound? p.environment.symbols a.parameters = some shown) :
    (Moment.enters depth i k time stateTime).shown? p options w =
      some (some ⟨depth, .option name time stateName stateTime shown⟩, w) := by
  refine bind_eq_some.2 ⟨node, w, lift_eq_some.2 ⟨hnode, rfl⟩, ?_⟩
  refine bind_eq_some.2 ⟨name, w, lift_eq_some.2 ⟨hname, rfl⟩, ?_⟩
  refine bind_eq_some.2 ⟨stateName, w, lift_eq_some.2 ⟨hstate, rfl⟩, ?_⟩
  refine bind_eq_some.2 ⟨a, w, lift_eq_some.2 ⟨ha, rfl⟩, ?_⟩
  exact bind_eq_some.2 ⟨shown, w, lift_eq_some.2 ⟨hshown, rfl⟩, rfl⟩

theorem Moment.shown?_requests {behavior : BasicBehavior σ} {name : String}
    {shown : List ShownParameter} (hbehavior : p.environment.behaviors.at? k = some behavior)
    (hname : p.environment.behaviors.name? k = some name)
    (hshown : behavior.parameters.inSlots? p.environment.symbols w = some shown) :
    (Moment.requests depth k).shown? p options w =
      some (some ⟨depth, .behavior name shown⟩, w) := by
  refine bind_eq_some.2 ⟨behavior, w, lift_eq_some.2 ⟨hbehavior, rfl⟩, ?_⟩
  refine bind_eq_some.2 ⟨name, w, lift_eq_some.2 ⟨hname, rfl⟩, ?_⟩
  refine bind_eq_some.2 ⟨w, w, get_eq_some.2 ⟨rfl, rfl⟩, ?_⟩
  exact bind_eq_some.2 ⟨shown, w, lift_eq_some.2 ⟨hshown, rfl⟩, rfl⟩

theorem Moment.shown?_assigns {d : Domain} {expression : Expr d} {x : d.Value}
    {symbol : OutputSymbol σ d} {name : String} {shown : ShownValue}
    (hsymbol : (p.environment.symbols.outputs.get d).at? k = some symbol)
    (hname : (p.environment.symbols.outputs.get d).name? k = some name)
    (hshown : ShownValue.of? p.environment.symbols expression.typing (symbol.binding.read w).1 =
      some shown) :
    (Moment.assigns depth k expression x).shown? p options w =
      some (some ⟨depth, .output name shown⟩, (symbol.binding.read w).2) := by
  refine bind_eq_some.2 ⟨symbol, w, lift_eq_some.2 ⟨hsymbol, rfl⟩, ?_⟩
  refine bind_eq_some.2 ⟨name, w, lift_eq_some.2 ⟨hname, rfl⟩, ?_⟩
  refine bind_eq_some.2 ⟨_, _, modifyGet_eq_some.2 rfl, ?_⟩
  exact bind_eq_some.2 ⟨shown, _, lift_eq_some.2 ⟨hshown, rfl⟩, rfl⟩

end Entries

/-- The entries of a trace, in its order. -/
def replay (p : Program σ) (options : List Activation) :
    List (Moment σ) → StateT (World σ) Option (List ActiveBehavior)
  | [] => return []
  | x :: trace => do
    let entry ← x.shown? p options
    let entries ← replay p options trace
    return entry.toList ++ entries

section Replay

variable {p : Program σ} {options : List Activation} {x : Moment σ} {xs ys : List (Moment σ)}
  {w w₁ w' : World σ} {entries entries' : List ActiveBehavior}

theorem replay_nil : replay p options [] w = some (entries, w') ↔ [] = entries ∧ w = w' :=
  pure_eq_some

theorem replay_cons : replay p options (x :: xs) w = some (entries, w') ↔ ∃ entry w₁ rest,
    x.shown? p options w = some (entry, w₁) ∧ replay p options xs w₁ = some (rest, w') ∧
    entry.toList ++ rest = entries := pair_eq_some

/-- A moment without an entry is passed over. -/
theorem replay_cons_of_none (hx : x.shown? p options w = some (none, w))
    (h : replay p options xs w = some (entries, w')) :
    replay p options (x :: xs) w = some (entries, w') :=
  replay_cons.2 ⟨none, w, entries, hx, h, rfl⟩

/-- A moment with an entry gives it. -/
theorem replay_singleton {entry : ActiveBehavior}
    (hx : x.shown? p options w = some (some entry, w')) :
    replay p options [x] w = some ([entry], w') :=
  replay_cons.2 ⟨some entry, w', [], hx, replay_nil.2 ⟨rfl, rfl⟩, rfl⟩

theorem replay_append (h : replay p options xs w = some (entries, w₁))
    (h' : replay p options ys w₁ = some (entries', w')) :
    replay p options (xs ++ ys) w = some (entries ++ entries', w') := by
  induction xs generalizing w entries with
  | nil =>
    obtain ⟨rfl, rfl⟩ := replay_nil.1 h
    exact h'
  | cons x xs ih =>
    obtain ⟨entry, w₂, rest, hx, hrest, rfl⟩ := replay_cons.1 h
    exact replay_cons.2 ⟨entry, w₂, rest ++ entries', hx, ih hrest, by simp⟩

end Replay

/-! ### Walk and cycle side by side -/

/-- The walk that belongs to a part of a cycle. -/
def Task.walk (p : Program σ) (options : List Activation) (cycle n depth : Nat) :
    Task → StateT (Walk σ) Option Unit
  | .option i => Walk.option p options cycle n depth i
  | .action _ _ _ a => Walk.action p (Walk.option p options cycle n depth) depth a
  | .actions _ _ _ _ as => as.forM (Walk.action p (Walk.option p options cycle n depth) depth)

/-- Of the options that run between two machines, a list keeps what the second one has. -/
def Machine.KeptIn (c : Cycle) (m m' : Machine σ) (options : List Activation) : Prop :=
  ∀ (j : Nat) (a : Activation), ¬ m.Ran c j → m'.options[j]? = some a →
    a.ranIn c.number = true → options[j]? = some a

/-- What a walk has visited is what has run. -/
def Walk.Follows (c : Cycle) (w : Walk σ) (m : Machine σ) : Prop :=
  ∀ j, j ∈ w.visited ↔ m.Ran c j

section Simulation

variable {p : Program σ} {c : Cycle} {t : Task} {depth n : Nat} {m m₁ m' : Machine σ}
  {options : List Activation} {trace : List (Moment σ)} {w w' : Walk σ}

/-- The options that run while another one does are kept as well. -/
theorem Machine.KeptIn.enter {i initial next : Nat} {a : Activation} {store : Store σ}
    (h : m.KeptIn c ({ m₁ with store }.modifyOption i fun a => a.finish c next) options)
    (ha : m.options[i]? = some a) :
    (m.modifyOption i fun a => a.start c initial).KeptIn c m₁ options := by
  intro j a' hj ha' hr'
  have hij : i ≠ j := by
    rintro rfl
    exact hj (Machine.ran_start ha)
  rw [Machine.ran_modifyOption_of_ne hij] at hj
  exact h j a' hj ((Machine.modifyOption_getElem?_of_ne hij).trans ha') hr'

/-- An option that has run is not walked. -/
theorem Walk.Follows.skips {i : Nat} (hv : w.Follows c m) (hi : m.Ran c i)
    (h : Walk.option p options c.number n depth i w = some ((), w')) : w' = w := by
  obtain ⟨a, -, ⟨-, hw⟩ | ⟨hnot, -⟩⟩ := Walk.option_cases h
  · exact hw
  · exact absurd ((hv i).2 hi) hnot

/-- An option that runs next is walked next. -/
theorem Walk.Follows.enters {i : Nat} {a : Activation} (hv : w.Follows c m) (hi : ¬ m.Ran c i)
    (ha : options[i]? = some a) (hr : a.ranIn c.number = true)
    (h : Walk.option p options c.number n depth i w = some ((), w')) :
    Walk.Enters p options c.number n depth i a w w' := by
  obtain ⟨b, hb, hcases⟩ := Walk.option_cases h
  obtain rfl := Option.some_inj.1 (ha.symm.trans hb)
  rcases hcases with ⟨hskip | hskip, -⟩ | ⟨-, -, henters⟩
  · exact absurd ((hv i).1 hskip) hi
  · rw [hr] at hskip
    cases hskip
  · exact henters

/-- When an option starts to run, it is visited. -/
theorem Walk.Follows.enter {i : Nat} {a : Activation} {initial : Nat} (hv : w.Follows c m)
    (ha : m.options[i]? = some a) (entries : List ActiveBehavior) (world : World σ) :
    Walk.Follows c ⟨i :: w.visited, entries, world⟩
      (m.modifyOption i fun a => a.start c initial) := by
  intro j
  rw [List.mem_cons, hv j]
  by_cases hij : i = j
  · subst hij
    exact iff_of_true (.inl rfl) (Machine.ran_start ha)
  · rw [Machine.ran_modifyOption_of_ne hij]
    exact or_iff_right (Ne.symm hij)

/-- When an option finishes its run, nothing else is visited. -/
theorem Walk.Follows.finish {i next : Nat} {a : Activation} {store : Store σ}
    (hv : w.Follows c m) (ha : m.options[i]? = some a) :
    w.Follows c ({ m with store }.modifyOption i fun a => a.finish c next) := by
  intro j
  rw [hv j]
  by_cases hij : i = j
  · subst hij
    rw [Machine.ran_iff ha, Machine.ran_iff (Machine.modifyOption_getElem? (m := { m with store })
      ha), Activation.finish_ranIn]
  · exact (Machine.ran_modifyOption_of_ne (m := { m with store }) hij).symm

/-- **The walk replays the cycle**: it gives the entries of the trace, and visits what runs. -/
theorem Traces.replays (h : Traces p c t depth m trace m') (hkept : m.KeptIn c m' options)
    (hv : w.Follows c m) (hw : t.walk p options c.number n depth w = some ((), w')) :
    w'.Follows c m' ∧ ∃ entries, replay p options trace w.world = some (entries, w'.world) ∧
      w'.entries = w.entries ++ entries := by
  induction h generalizing n w w' with
  | again ha hr =>
    obtain rfl := hv.skips ⟨_, ha, hr⟩ hw
    exact ⟨hv, [], rfl, (List.append_nil _).symm⟩
  | @enter i depth k next _ m m₁ a _ node state trace s store ha hr hn hb hk hs ht hacts _ _ _ ih =>
    subst hb hk
    have hend := hacts.runs.keeps_start ha
    have hfinish := Machine.modifyOption_getElem? (m := { m₁ with store })
      (f := fun a => a.finish c next) hend
    have hnot := Machine.not_ran ha hr
    have hfinal := hkept i _ hnot hfinish (by simp)
    obtain ⟨n', node', name, state', stateName, stateTime, shown, rfl, hn', hname, hs',
      hstateName, hstateTime, hshown, hw⟩ := hv.enters hnot hfinal (by simp) hw
    -- What the walk looks up is what the cycle looked up.
    obtain rfl := Option.some_inj.1 (hn.symm.trans hn')
    simp only [Activation.finish_executed, Activation.finish_elapsed,
      Activation.finish_stateTime?] at hs' hstateName hstateTime hw
    obtain rfl := Option.some_inj.1 (hs.symm.trans hs')
    obtain rfl := Option.some_inj.1 (ht.symm.trans hstateTime)
    obtain ⟨hv', entries, hreplay, hentries⟩ := ih (hkept.enter ha) (hv.enter ha _ _) hw
    refine ⟨hv'.finish hend, _, replay_cons.2 ⟨_, _, entries,
      Moment.shown?_enters hn hname hstateName hfinal hshown, ?_, rfl⟩, by simp [hentries]⟩
    -- After the actions no moment of the trace has an entry.
    rw [← List.append_nil entries]
    exact replay_append hreplay
      (replay_cons_of_none rfl (replay_cons_of_none rfl (replay_nil.2 ⟨rfl, rfl⟩)))
  | skipOption ha hr =>
    obtain rfl := hv.skips ⟨_, ha, hr⟩ hw
    exact ⟨hv, [], rfl, (List.append_nil _).symm⟩
  | @activate _ _ target _ _ _ m m' a bound _ _ store trace ha _ _ _ hb h ih =>
    have hran : ∀ j, ({ m with store }.modifyOption target fun _ => bound).Ran c j ↔ m.Ran c j :=
      fun j => Machine.ran_bind_iff ha hb
    obtain ⟨hv', entries, hreplay, hentries⟩ :=
      ih (fun j a' hj => hkept j a' (mt (hran j).2 hj)) (fun j => (hv j).trans (hran j).symm) hw
    exact ⟨hv', entries, replay_cons_of_none rfl hreplay, hentries⟩
  | skipBehavior =>
    rw [Task.walk] at hw
    obtain ⟨behavior, name, shown, hb, hname, hshown, rfl⟩ := Walk.behave_eq_some hw
    exact ⟨hv, _, replay_singleton (Moment.shown?_requests hb hname hshown), rfl⟩
  | behave =>
    rw [Task.walk] at hw
    obtain ⟨behavior, name, shown, hb, hname, hshown, rfl⟩ := Walk.behave_eq_some hw
    -- Only the first moment has an entry.
    exact ⟨hv, _, replay_cons.2 ⟨_, _, [], Moment.shown?_requests hb hname hshown,
      replay_cons_of_none rfl (replay_cons_of_none rfl (replay_nil.2 ⟨rfl, rfl⟩)), rfl⟩, rfl⟩
  | assign =>
    rw [Task.walk] at hw
    obtain ⟨symbol, name, value, hk, hname, hshown, rfl⟩ := Walk.assign_eq_some hw
    exact ⟨hv, _, replay_cons_of_none rfl
      (replay_singleton (Moment.shown?_assigns hk hname hshown)), rfl⟩
  | nil =>
    obtain ⟨-, rfl⟩ := pure_eq_some.1 hw
    exact ⟨hv, [], rfl, (List.append_nil _).symm⟩
  | @cons i depth _ _ _ _ _ m m₁ m' _ _ h hs ih ihs =>
    obtain ⟨_, w₁, h₁, h₂⟩ := bind_eq_some.1 hw
    obtain ⟨hv₁, entries, hreplay, hentries⟩ :=
      ih (fun j a hj ha hr => hkept j a hj (hs.runs.untouched ha hr) hr) hv h₁
    obtain ⟨hv', entries', hreplay', hentries'⟩ :=
      ihs (fun j a hj => hkept j a (mt h.runs.ran_mono hj)) hv₁ h₂
    refine ⟨hv', entries ++ entries', replay_append hreplay hreplay', ?_⟩
    rw [hentries', hentries, List.append_assoc]

/-- The entries of a snapshot are those of the trace, if nothing had run before the cycle. -/
theorem Traces.replay_eq {root : Nat} {w w' : World σ} {entries : List ActiveBehavior}
    (h : Traces p c (.option root) 0 m trace m') (hm : ∀ i, ¬ m.Ran c i)
    (hw : activeBehaviors? p m'.options c.number root w = some (entries, w')) :
    replay p m'.options trace w = some (entries, w') := by
  obtain ⟨⟨_, walk⟩, hwalk, hresult⟩ := Option.bind_eq_some_iff.1 hw
  obtain ⟨rfl, rfl⟩ := Prod.mk.inj (Option.some_inj.1 hresult)
  have hv : Walk.Follows c ⟨[], [], w⟩ m := fun i => iff_of_false List.not_mem_nil (hm i)
  obtain ⟨-, entries, hreplay, hentries⟩ := h.replays (fun _ _ _ ha _ => ha) hv hwalk
  rw [hreplay, hentries, List.nil_append]

end Simulation

/-! ### What is listed -/

/-- What an entry is about. -/
inductive Subject where
  | option (name : String)
  | behavior (name : String)
  | output (domain : Domain) (name : String)
  deriving DecidableEq

/-- The domain of a shown value. -/
def ShownValue.domain : ShownValue → Domain
  | decimal _ => .decimal
  | boolean _ => .boolean
  | enumerated .. => .enumerated

/-- What an activity is about. -/
def Activity.subject : Activity → Subject
  | option name .. => .option name
  | behavior name _ => .behavior name
  | output name value => .output value.domain name

/-- The option that is meant, if it is one. -/
def Subject.option? : Subject → Option String
  | option name => some name
  | _ => none

/-- What the entry of a moment is about. -/
def Moment.subject? (p : Program σ) : Moment σ → Option Subject
  | .enters _ i _ _ _ => (p.graph.options.name? i).map .option
  | .requests _ k => (p.environment.behaviors.name? k).map .behavior
  | .assigns _ (d := d) k _ _ => ((p.environment.symbols.outputs.get d).name? k).map (.output d)
  | .evaluates .. => none
  | .behaves .. => none
  | .selects .. => none

theorem ShownValue.domain_of {symbols : Symbols σ} {d : Domain} {t : d.Typing} {x : d.Value}
    {shown : ShownValue} (h : ShownValue.of? symbols t x = some shown) : shown.domain = d := by
  cases d with
  | decimal | boolean =>
    cases h
    rfl
  | enumerated =>
    obtain ⟨_, -, rfl⟩ := Option.map_eq_some_iff.1 h
    rfl

section Listed

variable {p : Program σ} {options : List Activation} {x : Moment σ} {trace : List (Moment σ)}
  {w w' : World σ} {entries : List ActiveBehavior}

theorem Moment.subject?_of_shown? {entry : Option ActiveBehavior}
    (h : x.shown? p options w = some (entry, w')) :
    entry.map (·.activity.subject) = x.subject? p := by
  cases x with
  | enters depth i k time stateTime =>
    obtain ⟨node, w₁, h₁, h⟩ := bind_eq_some.1 h
    obtain ⟨name, w₂, h₂, h⟩ := bind_eq_some.1 h
    obtain ⟨stateName, w₃, h₃, h⟩ := bind_eq_some.1 h
    obtain ⟨a, w₄, h₄, h⟩ := bind_eq_some.1 h
    obtain ⟨shown, w₅, h₅, h⟩ := bind_eq_some.1 h
    obtain ⟨rfl, -⟩ := pure_eq_some.1 h
    rw [subject?, (lift_eq_some.1 h₂).1]
    rfl
  | requests depth k =>
    obtain ⟨behavior, w₁, h₁, h⟩ := bind_eq_some.1 h
    obtain ⟨name, w₂, h₂, h⟩ := bind_eq_some.1 h
    obtain ⟨t, w₃, h₃, h⟩ := bind_eq_some.1 h
    obtain ⟨shown, w₄, h₄, h⟩ := bind_eq_some.1 h
    obtain ⟨rfl, -⟩ := pure_eq_some.1 h
    rw [subject?, (lift_eq_some.1 h₂).1]
    rfl
  | @assigns depth d k expression y =>
    obtain ⟨symbol, w₁, h₁, h⟩ := bind_eq_some.1 h
    obtain ⟨name, w₂, h₂, h⟩ := bind_eq_some.1 h
    obtain ⟨y', w₃, h₃, h⟩ := bind_eq_some.1 h
    obtain ⟨shown, w₄, h₄, h⟩ := bind_eq_some.1 h
    obtain ⟨rfl, -⟩ := pure_eq_some.1 h
    rw [subject?, (lift_eq_some.1 h₂).1]
    simp [Activity.subject, ShownValue.domain_of (lift_eq_some.1 h₄).1]
  | evaluates | behaves | selects =>
    obtain ⟨rfl, -⟩ := pure_eq_some.1 h
    rfl

/-- **What a snapshot lists** is what the moments of the trace are about. -/
theorem replay_subjects (h : replay p options trace w = some (entries, w')) :
    entries.map (·.activity.subject) = trace.filterMap (Moment.subject? p) := by
  induction trace generalizing w entries with
  | nil =>
    obtain ⟨rfl, -⟩ := replay_nil.1 h
    rfl
  | cons x trace ih =>
    obtain ⟨entry, w₁, rest, hx, hrest, rfl⟩ := replay_cons.1 h
    rw [List.map_append, ih hrest, List.filterMap_cons, ← Moment.subject?_of_shown? hx]
    cases entry <;> rfl

/-- The options that a snapshot lists are those that the cycle entered. -/
theorem replay_options (h : replay p options trace w = some (entries, w')) :
    (entries.map (·.activity.subject)).filterMap Subject.option? =
      (entered (trace.filterMap Moment.event?)).filterMap p.graph.options.name? := by
  rw [replay_subjects h, entered, List.filterMap_filterMap, List.filterMap_filterMap,
    List.filterMap_filterMap]
  refine List.filterMap_congr fun x _ => ?_
  cases x with
  | enters depth i k time stateTime =>
    cases hi : p.graph.options.name? i <;>
      simp [Moment.subject?, Moment.event?, Event.option?, Subject.option?, hi]
  | requests depth k =>
    cases hk : p.environment.behaviors.name? k <;>
      simp [Moment.subject?, Moment.event?, Subject.option?, hk]
  | @assigns depth d k _ _ =>
    cases hk : (p.environment.symbols.outputs.get d).name? k <;>
      simp [Moment.subject?, Moment.event?, Event.option?, Subject.option?, hk]
  | evaluates | behaves | selects => rfl

end Listed

/-! ### Entries of actions -/

/-- Whether a moment has an entry. -/
def Moment.isListed : Moment σ → Bool
  | .enters .. => true
  | .requests .. => true
  | .assigns .. => true
  | _ => false

/-- Of the run of an option, its start and what its actions add is listed. -/
theorem Moment.filter_isListed_enter {depth i k time stateTime next : Nat} {path : Path}
    {s : Surroundings σ} {m : Machine σ} {trace : List (Moment σ)} :
    (.enters depth i k time stateTime :: (trace ++ [.evaluates i path s m, .selects i next])).filter
      Moment.isListed = .enters depth i k time stateTime :: trace.filter Moment.isListed := by
  rw [List.filter_cons_of_pos rfl, List.filter_append]
  exact congrArg _ (List.append_nil _)

/-- What an action adds to what is listed: one moment for a basic behavior or an output, and for an
activation nothing or the run of the option. -/
def Action.Adds (depth : Nat) : Action → List (Moment σ) → Prop
  | .behave k _, xs => xs = [.requests depth k]
  | .assign k expression, xs => ∃ x, xs = [.assigns depth k expression x]
  | .activate i _, xs =>
    xs = [] ∨ ∃ k time stateTime rest, xs = .enters depth i k time stateTime :: rest

section Blocks

variable {p : Program σ} {c : Cycle} {t : Task} {depth i : Nat} {state : Graph.State}
  {m m' : Machine σ} {trace : List (Moment σ)}

theorem Traces.adds {site : Path} {a : Action}
    (h : Traces p c (.action i state site a) depth m trace m') :
    a.Adds depth (trace.filter Moment.isListed) := by
  cases h with
  | skipOption => exact .inl rfl
  | activate _ _ _ _ _ h =>
    cases h with
    | again => exact .inl rfl
    | enter => exact .inr ⟨_, _, _, _, rfl⟩
  | skipBehavior | behave => rfl
  | assign => exact ⟨_, rfl⟩

/-- Actions add to what is listed one after the other. -/
theorem Traces.blocks {path : Path} {k : Nat} {as : List Action}
    (h : Traces p c (.actions i state path k as) depth m trace m') :
    ∃ blocks : List (List (Moment σ)), trace.filter Moment.isListed = blocks.flatten ∧
      List.Forall₂ (Action.Adds depth) as blocks := by
  induction as generalizing k m trace with
  | nil =>
    cases h
    exact ⟨[], rfl, .nil⟩
  | cons a as ih =>
    cases h with
    | cons h hs =>
      obtain ⟨blocks, hblocks, hadds⟩ := ih hs
      exact ⟨_ :: blocks, by rw [List.filter_append, hblocks, List.flatten_cons],
        .cons h.adds hadds⟩

/-- **What a state does is listed right below its option**, one level deeper and in the order of
its actions. -/
theorem Traces.followed (h : Traces p c t depth m trace m') {n j k time stateTime : Nat}
    (hx : .enters n j k time stateTime ∈ trace) : ∃ node state before blocks after,
      p.graph.options.at? j = some node ∧ node.states.at? k = some state ∧
      trace.filter Moment.isListed =
        before ++ .enters n j k time stateTime :: (blocks.flatten ++ after) ∧
      List.Forall₂ (Action.Adds (n + 1)) state.actions blocks := by
  induction h with
  | again | skipOption | nil => cases hx
  | skipBehavior | behave | assign => simp at hx
  | @enter i depth _ _ _ _ _ _ _ node state trace _ _ _ _ hn _ hk hs ht hacts _ _ _ ih =>
    simp only [List.mem_cons, List.mem_append, Moment.enters.injEq, reduceCtorEq,
      List.not_mem_nil, or_false] at hx
    rcases hx with ⟨rfl, rfl, rfl, rfl, rfl⟩ | hx
    · obtain ⟨blocks, hblocks, hadds⟩ := hacts.blocks
      refine ⟨node, state, [], blocks, [], hn, hs, ?_, hadds⟩
      rw [Moment.filter_isListed_enter, hblocks, List.append_nil, List.nil_append]
    · obtain ⟨node', state', before, blocks, after, hn', hs', htrace, hadds⟩ := ih hx
      exact ⟨node', state', _ :: before, blocks, after, hn', hs',
        by rw [Moment.filter_isListed_enter, htrace, List.cons_append], hadds⟩
  | activate _ _ _ _ _ _ ih =>
    obtain ⟨node, state, before, blocks, after, hn, hs, htrace, hadds⟩ := ih (by simpa using hx)
    exact ⟨node, state, before, blocks, after, hn, hs, htrace, hadds⟩
  | @cons _ _ _ _ _ _ _ _ _ _ trace trace' _ _ ih ihs =>
    rw [List.filter_append]
    rcases List.mem_append.1 hx with hx | hx
    · obtain ⟨node, state, before, blocks, after, hn, hs, htrace, hadds⟩ := ih hx
      refine ⟨node, state, before, blocks, after ++ trace'.filter Moment.isListed, hn, hs, ?_,
        hadds⟩
      rw [htrace]
      simp only [List.append_assoc, List.cons_append]
    · obtain ⟨node, state, before, blocks, after, hn, hs, htrace, hadds⟩ := ihs hx
      exact ⟨node, state, trace.filter Moment.isListed ++ before, blocks, after, hn, hs,
        by rw [htrace, List.append_assoc], hadds⟩

end Blocks

/-! ### Snapshots -/

/-- **A snapshot is a replay of a cycle** with a trace that starts at the root option. -/
structure Replays (p : Program σ) (cycle root : Nat) (options : List Activation)
    (trace : List (Moment σ)) (w : World σ) (entries : List ActiveBehavior) (w' : World σ) :
    Prop where
  /-- Each of the moments that are listed gives one entry, in the order of the trace. -/
  replay_eq : replay p options trace w = some (entries, w')
  enters_root : ∃ k time stateTime rest, trace = .enters 0 root k time stateTime :: rest
  /-- The state and the times of an entry are those of the run of the option. -/
  kept : ∀ depth i k time stateTime, .enters depth i k time stateTime ∈ trace →
    ∃ a, options[i]? = some a ∧ a.ranIn cycle = true ∧ a.executed = k ∧ a.elapsed = time ∧
      a.stateTime? k = some stateTime
  /-- Right below an option stand the entries of the actions of its state, in their order. -/
  followed : ∀ depth i k time stateTime, .enters depth i k time stateTime ∈ trace →
    ∃ node state before blocks after, p.graph.options.at? i = some node ∧
      node.states.at? k = some state ∧ trace.filter Moment.isListed =
        before ++ .enters depth i k time stateTime :: (blocks.flatten ++ after) ∧
      List.Forall₂ (Action.Adds (depth + 1)) state.actions blocks
  /-- No option is listed twice. -/
  nodup : ((entries.map (·.activity.subject)).filterMap Subject.option?).Nodup
  /-- The options that are listed are those that ran. -/
  option_iff : ∀ name, .option name ∈ entries.map (·.activity.subject) ↔ ∃ i a,
    p.graph.options.name? i = some name ∧ options[i]? = some a ∧ a.ranIn cycle = true

theorem Subject.mem_filterMap_option? {subjects : List Subject} {name : String} :
    name ∈ subjects.filterMap Subject.option? ↔ .option name ∈ subjects := by
  rw [List.mem_filterMap]
  constructor
  · rintro ⟨subject, hmem, h⟩
    cases subject with
    | option => exact Option.some_inj.1 h ▸ hmem
    | behavior | output => cases h
  · exact fun h => ⟨_, h, rfl⟩

/-- **The snapshot of a cycle replays it**, if nothing had run before the cycle. -/
theorem Traces.replays_snapshot {p : Program σ} {c : Cycle} {m m' : Machine σ} {root : Nat}
    {trace : List (Moment σ)} {w w' : World σ} {entries : List ActiveBehavior}
    (h : Traces p c (.option root) 0 m trace m') (hm : ∀ i, ¬ m.Ran c i)
    (hw : activeBehaviors? p m'.options c.number root w = some (entries, w')) :
    Replays p c.number root m'.options trace w entries w' := by
  have hreplay := h.replay_eq hm hw
  have hoptions := replay_options hreplay
  refine ⟨hreplay, ?_, ?_, fun _ _ _ _ _ => h.followed, ?_, fun name => ?_⟩
  · cases h with
    | again ha hr => exact absurd ⟨_, ha, hr⟩ (hm root)
    | enter => exact ⟨_, _, _, _, rfl⟩
  · intro depth i k time stateTime hx
    obtain ⟨a, ha, hr, hk, htime, hstateTime⟩ := h.agrees nofun _ hx i rfl
    exact ⟨a, ha, hr, hk, htime, hstateTime⟩
  · rw [hoptions]
    refine h.runs.nodup_entered.filterMap fun i j name hi hj => ?_
    exact Registry.name?_inj hi hj
  · rw [← Subject.mem_filterMap_option?, hoptions, List.mem_filterMap]
    constructor
    · rintro ⟨i, hi, hname⟩
      obtain ⟨-, a, ha, hr⟩ := h.runs.mem_entered_iff.1 hi
      exact ⟨i, a, hname, ha, hr⟩
    · rintro ⟨i, a, hname, ha, hr⟩
      exact ⟨i, h.runs.mem_entered_iff.2 ⟨hm i, a, ha, hr⟩, hname⟩

end BehaviorEngine
