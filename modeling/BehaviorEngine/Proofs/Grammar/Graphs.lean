import BehaviorEngine.Proofs.Grammar.States

/-!
The languages of options, agents and whole graphs. The headers of all options are read before the
first body, so a body resolves the names of all of them; of a header only the name and the formal
parameters count. The main result closes the theory of the grammar: a source describes a graph
exactly if its words are a sentence that denotes this graph.
-/

namespace BehaviorEngine

namespace Grammar

open Construct

variable {σ : Type}

/-! ### Bodies of options -/

theorem reads_namedState (scope : Scope σ) (expected : String) :
    Reads id (namedState scope expected)
      (fun ts s => ∃ t : State, t.words = ts ∧ t.name = expected ∧ True ∧
        (t.NestedAtMost scope.limits.nestingDepth ∧ t.Denotes scope.context s)) := by
  refine (Reads.word_bind (N := fun name us s => ¬ name.text ≠ expected ∧ ∃ t : State,
    t.words = name.text :: us ∧ t.NestedAtMost scope.limits.nestingDepth ∧
    t.Denotes scope.context s) (fun _ _ _ => rfl) fun name =>
    Reads.guard fun _ => (reads_state scope name.text).within _ _).congr fun ts s => ?_
  constructor
  · rintro ⟨_, _, rfl, hname, t, hw, hn, hd⟩
    exact ⟨t, hw, (List.cons.inj hw).1.trans (not_not.1 hname), trivial, hn, hd⟩
  · rintro ⟨t, rfl, rfl, -, hn, hd⟩
    exact ⟨t.name, _, rfl, not_not.2 rfl, t, rfl, hn, hd⟩

theorem reads_stateName (names : Registry Unit) :
    Reads Registry.entries (stateName names)
      (fun ts es => ∃ name : String, [name] = ts ∧ ∃ e, es = names.entries ++ [e] ∧
        e = (name, ()) ∧ e.1 ∉ names.entries.map Prod.fst) := by
  refine (Reads.word_bind (fun _ _ _ => rfl) fun name =>
    Reads.append .state names name ()).congr fun ts es => ?_
  constructor
  · rintro ⟨name, _, rfl, rfl, rfl, hn⟩
    exact ⟨name, rfl, _, rfl, rfl, hn⟩
  · rintro ⟨name, rfl, _, rfl, rfl, hn⟩
    exact ⟨name, [], rfl, rfl, rfl, hn⟩

/-- The names of the states are read into a registry of these names. -/
theorem reads_stateNames (n : Nat) :
    Reads id (iterate stateName n Registry.empty)
      (fun ts names => names.names = ts ∧ ts.length = n) := by
  refine (Reads.of_entries (Reads.iterate_distinct reads_stateName n rfl)).congr
    fun ts names => ?_
  constructor
  · rintro ⟨trees, rfl, rfl, hP, -⟩
    have : trees.map id = names.entries.map Prod.fst :=
      forall₂_iff_map_eq.1 (hP.imp fun _ _ h => by rw [h]; rfl)
    rw [List.map_id] at this
    simp [Registry.names, ← this]
  · rintro ⟨rfl, rfl⟩
    refine ⟨names.names, by simp, rfl, ?_, names.nodup⟩
    rw [Registry.names, List.forall₂_map_left_iff, List.forall₂_same]
    exact fun _ _ => rfl

/-- **The language of what follows the name of an option** at its body. -/
theorem reads_body (limits : Limits) (environment : Environment σ) (options : Registry Header)
    (parameters : Parameters Unit) (name : String) :
    Reads id (body limits environment options parameters)
      (fun ts node => ∃ b : Body, b.words = name :: ts ∧ node.parameters = parameters ∧
        b.NestedAtMost limits.nestingDepth ∧
        b.Denotes environment (options.map (·.parameters)) node) := by
  refine (Reads.count_bind fun n _ => (reads_stateNames n).seq fun names =>
    Reads.word_bind (fun _ _ _ => rfl) fun initial => Reads.resolve_bind fun i _ =>
    (Reads.mapM (reads_namedState ⟨limits, environment.symbols, environment.behaviors, options,
      parameters, names⟩) names.names).seq_pure fun states =>
    Graph.Node.mk parameters (names.withValues states) i).congr fun ts node => ?_
  constructor
  · rintro ⟨count, _, n, rfl, hn, _, _, names, rfl, ⟨rfl, rfl⟩, initial, _, rfl, i, _, hi, values,
      ⟨states, rfl, horder, -, hs⟩, rfl⟩
    replace horder : names.names.map id = states.map (·.name) :=
      forall₂_iff_map_eq.1 (horder.imp fun _ _ h => h.symm)
    rw [List.map_id] at horder
    have hlength : values.length = names.size := by
      rw [← hs.length_eq, ← Registry.names_length, horder, List.length_map]
    have hs' := (List.forall₂_and_left _ _).1 hs
    refine ⟨⟨name, count, names.names, initial, states⟩, rfl, rfl, hs'.1, hn, names.nodup, ?_,
      horder.symm, Registry.names_withValues hlength, ?_⟩
    · simp [Registry.names_getElem?, hi]
    · rw [Registry.values_withValues hlength]
      exact hs'.2
  · rintro ⟨b, hw, rfl, hn, hd⟩
    obtain ⟨-, rfl⟩ := List.cons.inj hw
    obtain ⟨names, hnames⟩ : ∃ names : Registry Unit, names.names = b.names := by
      refine ⟨node.states.map fun _ => (), ?_⟩
      rw [Registry.names_map, hd.names]
    have hlength : node.states.values.length = names.size := by
      rw [Registry.values_length, ← Registry.names_length, ← Registry.names_length, hd.names,
        hnames]
    have hinitial : names.entries[node.initial]? = some (b.initial, ()) := by
      have h := hd.initial
      rw [← hnames, Registry.names_getElem?] at h
      obtain ⟨⟨_, ⟨⟩⟩, h, rfl⟩ := Option.map_eq_some_iff.1 h
      exact h
    have hstates : names.withValues node.states.values = node.states :=
      Registry.ext_names_values (by rw [Registry.names_withValues hlength, hnames, hd.names])
        (Registry.values_withValues hlength)
    refine ⟨b.count, _, b.names.length, rfl, hd.count, b.names, _, names, rfl, ⟨hnames, rfl⟩,
      b.initial, _, rfl, node.initial, (), hinitial, node.states.values,
      ⟨b.states, rfl, ?_, ?_, ?_⟩, by rw [hstates]⟩
    · rw [hnames, ← hd.order]
      exact List.forall₂_map_left_iff.2 (List.forall₂_same.2 fun _ _ => rfl)
    · exact List.forall₂_iff_zip.2
        ⟨by rw [hlength, Registry.names_length], fun _ => trivial⟩
    · have hcontext : Scope.context ⟨limits, environment.symbols, environment.behaviors, options,
          node.parameters, names⟩ = ⟨environment.symbols, environment.behaviors,
          options.map (·.parameters), node.parameters, b.names⟩ := by
        rw [← hnames]; rfl
      rw [hcontext]
      exact (List.forall₂_and_left _ _).2 ⟨hn, hd.states⟩

/-- The language of the body that belongs to a header. -/
theorem reads_namedBody (limits : Limits) (environment : Environment σ) (options : Registry Header)
    (expected : String × Header) :
    Reads id (namedBody limits environment options expected)
      (fun ts node => ∃ b : Body, b.words = ts ∧ b.name = expected.1 ∧
        node.parameters = expected.2.parameters ∧ (b.NestedAtMost limits.nestingDepth ∧
        b.Denotes environment (options.map (·.parameters)) node)) := by
  refine (Reads.word_bind (N := fun name us node => ¬ name.text ≠ expected.1 ∧ ∃ b : Body,
    b.words = name.text :: us ∧ node.parameters = expected.2.parameters ∧
    b.NestedAtMost limits.nestingDepth ∧
    b.Denotes environment (options.map (·.parameters)) node) (fun _ _ _ => rfl)
    fun name => ?_).congr fun ts node => ?_
  · by_cases h : name.text = expected.1
    · simp only [h, ne_eq, not_true_eq_false, if_false, not_false_eq_true, true_and]
      exact ((reads_body limits environment options expected.2.parameters _).within _ _)
    · simp only [h, ne_eq, not_false_eq_true, if_true, not_true_eq_false, false_and]
      exact Reads.of_error fun c => ⟨_, c, rfl⟩
  · constructor
    · rintro ⟨_, _, rfl, hname, b, hw, hp, hn, hd⟩
      exact ⟨b, hw, (List.cons.inj hw).1.trans (not_not.1 hname), hp, hn, hd⟩
    · rintro ⟨b, rfl, hname, hp, hn, hd⟩
      exact ⟨b.name, _, rfl, not_not.2 hname, b, rfl, hp, hn, hd⟩

/-! ### Headers -/

/-- A declaration adds a parameter of its domain after the ones that are declared already, under a
name that none of these has. -/
inductive Declares (symbols : Symbols σ) (ps : Parameters Unit) (x : Declaration) :
    Parameters Unit → Prop
  | mk {d : Domain} {y : String × Parameter Unit d} {r : Registry (Parameter Unit d)}
      (hx : x.Denotes symbols d y) (hr : r.entries = (ps.get d).entries ++ [y]) :
      Declares symbols ps x (ps.set d r)

/-- A declaration is its tag, what tells the typing, and the name, which can be any. -/
theorem Declaration.Denotes.renamed {symbols : Symbols σ} {x : Declaration} {d : Domain}
    {y : String × Parameter Unit d} (h : x.Denotes symbols d y) :
    ∃ ts, x.words = domainTag d :: (ts ++ [y.1]) ∧ ∀ name, ∃ x' : Declaration,
      x'.words = domainTag d :: (ts ++ [name]) ∧ x'.Denotes symbols d (name, y.2) := by
  cases h with
  | decimal => exact ⟨[], rfl, fun name => ⟨.decimal name, rfl, .decimal⟩⟩
  | boolean => exact ⟨[], rfl, fun name => ⟨.boolean name, rfl, .boolean⟩⟩
  | enumerated he => exact ⟨[_], rfl, fun name => ⟨.enumerated _ name, rfl, .enumerated he⟩⟩

theorem Declaration.Denotes.domain_eq {symbols : Symbols σ} {x : Declaration} {d : Domain}
    {y : String × Parameter Unit d} (h : x.Denotes symbols d y) : x.domain = d := by
  cases h <;> rfl

theorem Declaration.Denotes.name_eq {symbols : Symbols σ} {x : Declaration} {d : Domain}
    {y : String × Parameter Unit d} (h : x.Denotes symbols d y) : x.name = y.1 := by
  cases h <;> rfl

/-- The language of what stands between the tag of a declaration and the name. -/
theorem reads_typing (symbols : Symbols σ) (d : Domain) :
    Reads id (parameter.typing symbols d)
      (fun ts typing => ∀ name, ∃ x : Declaration, x.words = domainTag d :: (ts ++ [name]) ∧
        x.Denotes symbols d (name, ⟨typing, ()⟩)) := by
  cases d with
  | decimal | boolean =>
    refine (Reads.pure id ()).congr fun ts typing => ?_
    constructor
    · rintro ⟨rfl, rfl⟩ name
      exact ⟨_, rfl, by constructor⟩
    · intro h
      obtain ⟨_, hw, ⟨⟩⟩ := h ""
      have hts : [""] = ts ++ [""] := (List.cons.inj hw).2
      obtain rfl : ts = [] := by simpa using hts
      exact ⟨rfl, rfl⟩
  | enumerated =>
    refine (Reads.word_bind (fun _ _ _ => rfl) fun name =>
      Reads.resolve_bind fun i _ => Reads.pure id i).congr fun ts typing => ?_
    constructor
    · rintro ⟨e, _, rfl, i, _, hi, rfl, rfl⟩ name
      exact ⟨_, rfl, .enumerated hi⟩
    · intro h
      obtain ⟨_, hw, hx⟩ := h ""
      cases hx with
      | @enumerated enumeration _ _ _ he =>
        have hts : [enumeration] ++ [""] = ts ++ [""] := (List.cons.inj hw).2
        obtain rfl := List.append_cancel_right hts
        exact ⟨_, _, rfl, _, _, he, rfl, rfl⟩

/-- The language of a declaration. -/
theorem reads_declaration (symbols : Symbols σ) (ps : Parameters Unit) :
    Reads id (parameter symbols ps)
      (fun ts ps' => ∃ x : Declaration, x.words = ts ∧ Declares symbols ps x ps') := by
  refine (Reads.word_bind (N := fun tag us ps' => ∃ x : Declaration, x.words = tag.text :: us ∧
    Declares symbols ps x ps') (fun _ _ _ => rfl) fun tag => ?_).congr fun ts ps' => ?_
  · cases hd : tag.tag?.bind Domain.ofTag? with
    | none =>
      refine (Reads.fail id _ _).congr fun us ps' => ?_
      constructor
      · exact False.elim
      · rintro ⟨x, hw, ⟨hx, -⟩⟩
        obtain ⟨ts, hts, -⟩ := hx.renamed
        rw [hts] at hw
        rw [domain_ofTag?_iff.2 (List.cons.inj hw).1.symm] at hd
        cases hd
    | some d =>
      rw [domain_ofTag?_iff] at hd
      refine ((reads_typing symbols d).seq fun typing =>
        Reads.word_bind (fun _ _ _ => rfl) fun name =>
        (Reads.of_entries (Reads.append (.optionParameter d) (ps.get d) name
          ⟨typing, ()⟩)).seq_pure (ps.set d)).congr fun us ps' => ?_
      constructor
      · rintro ⟨ts, _, typing, rfl, h, name, _, rfl, r, ⟨rfl, hr, -⟩, rfl⟩
        obtain ⟨x, hw, hx⟩ := h name
        exact ⟨x, by rw [hw, hd], .mk hx hr⟩
      · rintro ⟨x, hw, @⟨d', ⟨name, typing, ⟨⟩⟩, r, hx, hr⟩⟩
        obtain ⟨ts, hts, hrenamed⟩ := hx.renamed
        obtain ⟨htag, rfl⟩ := List.cons.inj (hts.symm.trans hw)
        obtain rfl := domainTag_injective (htag.trans hd)
        have hname : name ∉ (ps.get d').names := by
          have := r.nodup
          rw [hr, List.map_append, List.nodup_append] at this
          exact fun hmem => this.2.2 _ hmem _ (by simp) rfl
        exact ⟨ts, _, typing, rfl, hrenamed, name, [], rfl, r, ⟨rfl, hr, hname⟩, rfl⟩
  · constructor
    · rintro ⟨_, _, rfl, h⟩
      exact h
    · rintro ⟨x, rfl, h⟩
      cases x <;> exact ⟨_, _, rfl, _, rfl, h⟩

/-- Declarations one after another declare, in each domain, the parameters of this domain in their
order. -/
theorem folds_declares_iff {symbols : Symbols σ} {ps ps' : Parameters Unit}
    {xs : List Declaration} :
    Folds (Declares symbols) ps xs ps' ↔ ∀ d, ∃ zs, (ps'.get d).entries = (ps.get d).entries ++ zs ∧
      List.Forall₂ (fun x z => x.Denotes symbols d z) (xs.filter (·.domain = d)) zs := by
  constructor
  · intro h
    induction h with
    | nil => exact fun d => ⟨[], by simp, .nil⟩
    | @cons ps ps₁ ps' x xs hx _ ih =>
      intro d
      obtain @⟨d₁, y, r, hy, hr⟩ := hx
      obtain ⟨zs, hzs, hs⟩ := ih d
      by_cases hd : d₁ = d
      · subst hd
        refine ⟨y :: zs, ?_, ?_⟩
        · rw [hzs, PerDomain.get_set, hr, List.append_assoc]; rfl
        · rw [List.filter_cons_of_pos (by simp [hy.domain_eq])]
          exact .cons hy hs
      · refine ⟨zs, ?_, ?_⟩
        · rw [hzs, PerDomain.get_set_of_ne _ _ (Ne.symm hd)]
        · rwa [List.filter_cons_of_neg (by simpa [hy.domain_eq] using hd)]
  · intro h
    induction xs generalizing ps with
    | nil =>
      have : ps' = ps := PerDomain.ext_get fun d => by
        obtain ⟨zs, hzs, hs⟩ := h d
        cases hs
        exact Registry.ext (by simpa using hzs)
      rw [this]
      exact .nil
    | cons x xs ih =>
      obtain ⟨zs, hzs, hs⟩ := h x.domain
      rw [List.filter_cons_of_pos (by simp)] at hs
      cases hs with
      | @cons _ y _ zs hy hs =>
        have hnodup : (((ps.get x.domain).entries ++ [y]).map Prod.fst).Nodup := by
          have := (ps'.get x.domain).nodup
          rw [hzs, List.append_cons, List.map_append] at this
          exact this.of_append_left
        refine .cons (.mk (r := ⟨_, hnodup⟩) hy rfl) (ih fun d => ?_)
        by_cases hd : d = x.domain
        · subst hd
          exact ⟨zs, by rw [hzs, PerDomain.get_set, List.append_assoc]; rfl, hs⟩
        · obtain ⟨ws, hws, hs⟩ := h d
          rw [List.filter_cons_of_neg (by simpa using Ne.symm hd)] at hs
          exact ⟨ws, by rw [PerDomain.get_set_of_ne _ _ hd, hws], hs⟩

/-- The declarations of a header, one after another, give the parameters that the header denotes. -/
theorem heading_denotes_iff {symbols : Symbols σ} {h : Heading} {ps : Parameters Unit} :
    h.Denotes symbols ps ↔ readCount? h.count = some h.parameters.length ∧
      Folds (Declares symbols) Parameters.none h.parameters ps := by
  have hnone (d : Domain) :
      (Parameters.none.get d : Registry (Parameter Unit d)).entries = [] := by
    simp [Parameters.none, Registry.entries_empty]
  simp only [folds_declares_iff, hnone, List.nil_append, ↓existsAndEq, true_and]
  constructor
  · rintro ⟨hc, -, hp⟩
    exact ⟨hc, hp⟩
  · rintro ⟨hc, hp⟩
    refine ⟨hc, fun d => ?_, hp⟩
    rw [forall₂_iff_map_eq.1 ((hp d).imp fun _ _ => Declaration.Denotes.name_eq)]
    exact (ps.get d).nodup

/-- The language of a header; of the headers only the names and the parameters count. -/
theorem reads_header (symbols : Symbols σ) (headers : Registry Header) :
    Reads (fun r => (r.map (·.parameters)).entries) (header symbols headers)
      (fun ts es => ∃ h : Heading, h.words = ts ∧
        ∃ e, es = (headers.map (·.parameters)).entries ++ [e] ∧
          (e.1 = h.name ∧ h.Denotes symbols e.2) ∧
          e.1 ∉ (headers.map (·.parameters)).entries.map Prod.fst) := by
  refine (Reads.word_bind (fun _ _ _ => rfl) fun name => Reads.count_bind fun n _ =>
    (Reads.iterate (reads_declaration symbols) n Parameters.none).seq fun ps =>
    Reads.append_map Header.parameters .option headers name ⟨ps, name.span⟩).congr fun ts es => ?_
  have hnames : ∀ name, name ∉ headers.names ↔
      name ∉ (headers.map (·.parameters)).entries.map Prod.fst := fun name => by
    rw [← Registry.names, Registry.names_map]
  constructor
  · rintro ⟨name, _, rfl, count, _, n, rfl, hn, _, _, ps, rfl, ⟨xs, rfl, rfl, hxs⟩, rfl, rfl, hnew⟩
    exact ⟨⟨name, count, xs⟩, by simp [Heading.words], _, rfl,
      ⟨rfl, heading_denotes_iff.2 ⟨hn, hxs⟩⟩, (hnames _).1 hnew⟩
  · rintro ⟨h, rfl, ⟨_, ps⟩, rfl, ⟨rfl, hd⟩, hnew⟩
    obtain ⟨hc, hp⟩ := heading_denotes_iff.1 hd
    exact ⟨h.name, _, rfl, h.count, _, _, rfl, hc, _, [], ps, (List.append_nil _).symm,
      ⟨h.parameters, rfl, rfl, hp⟩, rfl, rfl, (hnames _).2 hnew⟩

/-! ### Agents -/

theorem reads_agent (options : Registry Header) (agents : Registry Nat) :
    Reads Registry.entries (agent options agents)
      (fun ts es => ∃ a : Agent, a.words = ts ∧ ∃ e, es = agents.entries ++ [e] ∧
        Agent.Denotes options.names a e ∧ e.1 ∉ agents.entries.map Prod.fst) := by
  refine (Reads.word_bind (fun _ _ _ => rfl) fun name =>
    Reads.word_bind (fun _ _ _ => rfl) fun root =>
    ((Reads.resolve .option options root).within _ _).seq fun i =>
    Reads.append .agent agents name i.1).congr fun ts es => ?_
  constructor
  · rintro ⟨name, _, rfl, root, _, rfl, _, _, ⟨i, header⟩, rfl, ⟨rfl, hi⟩, rfl, rfl, hn⟩
    refine ⟨⟨name, root⟩, rfl, _, rfl, ⟨rfl, ?_⟩, hn⟩
    simpa [Registry.names_getElem?] using ⟨header, hi⟩
  · rintro ⟨⟨_, root⟩, rfl, ⟨name, i⟩, rfl, ⟨rfl, hi⟩, hn⟩
    rw [Registry.names_getElem?, Option.map_eq_some_iff] at hi
    obtain ⟨⟨_, header⟩, he, rfl⟩ := hi
    exact ⟨name, _, rfl, _, _, rfl, [], [], ⟨i, header⟩, rfl, ⟨rfl, he⟩, rfl, rfl, hn⟩

/-! ### Graphs -/

/-- The language of what follows the bodies. -/
theorem accepts_agents (options : Registry Header) (nodes : List Graph.Node) :
    Accepts (do
        let (m, _) ← count
        let agents ← iterate (agent options) m Registry.empty
        finish
        return (⟨options.withValues nodes, agents⟩ : Graph))
      (fun ts g => g.options = options.withValues nodes ∧ ∃ (count : String) (as : List Agent),
        ts = count :: as.flatMap Agent.words ∧ readCount? count = some as.length ∧
        (as.map (·.name)).Nodup ∧ List.Forall₂ (Agent.Denotes options.names) as g.agents.entries)
      := by
  refine (Accepts.count_bind fun m _ => Accepts.seq
    (Reads.of_entries (Reads.iterate_distinct (reads_agent options) m rfl)) fun agents =>
    Accepts.finish (⟨options.withValues nodes, agents⟩ : Graph)).congr fun ts g => ?_
  constructor
  · rintro ⟨count, _, m, rfl, hm, _, _, agents, rfl, ⟨as, rfl, rfl, has, hn⟩, rfl, rfl⟩
    refine ⟨rfl, count, as, by simp, hm, ?_, has⟩
    rwa [forall₂_iff_map_eq.1 (has.imp fun _ _ h => h.1.symm)]
  · rintro ⟨ho, count, as, rfl, hm, hn, has⟩
    refine ⟨count, _, _, rfl, hm, _, [], g.agents, (List.append_nil _).symm,
      ⟨as, rfl, rfl, has, ?_⟩, rfl, by rw [← ho]⟩
    exact g.agents.nodup

/-- What follows the headers denotes a graph whose options have the formal parameters `ps`. -/
def DenotesBodies (limits : Limits) (environment : Environment σ) (ps : Registry (Parameters Unit))
    (ts : List String) (g : Graph) : Prop :=
  formals g = ps ∧ ∃ (bodies : List Body) (count : String) (as : List Agent),
    ts = bodies.flatMap Body.words ++ count :: as.flatMap Agent.words ∧
    bodies.map (·.name) = (formals g).names ∧
    (∀ b ∈ bodies, b.NestedAtMost limits.nestingDepth) ∧
    List.Forall₂ (Body.Denotes environment (formals g)) bodies g.options.values ∧
    readCount? count = some as.length ∧ (as.map (·.name)).Nodup ∧
    List.Forall₂ (Agent.Denotes g.options.names) as g.agents.entries

/-- The language of what follows the headers. -/
theorem accepts_bodies (limits : Limits) (environment : Environment σ) (headers : Registry Header) :
    Accepts (do
        let nodes ← headers.entries.mapM (namedBody limits environment headers)
        let (m, _) ← count
        let agents ← iterate (agent headers) m Registry.empty
        finish
        return (⟨headers.withValues nodes, agents⟩ : Graph))
      (DenotesBodies limits environment (headers.map (·.parameters))) := by
  refine (Accepts.seq (Reads.mapM (reads_namedBody limits environment headers) headers.entries)
    fun nodes => accepts_agents headers nodes).congr fun ts g => ?_
  constructor
  · rintro ⟨_, _, nodes, rfl, ⟨bodies, rfl, horder, hparameters, hb⟩, ho, count, as, rfl, hm, hn,
      has⟩
    have hlength : nodes.length = headers.size := hparameters.length_eq.symm
    have hnames : g.options.names = headers.names := by
      rw [ho, Registry.names_withValues hlength]
    have hvalues : g.options.values = nodes := by rw [ho, Registry.values_withValues hlength]
    have hf : formals g = headers.map (·.parameters) := by
      refine Registry.ext_names_values (by simpa [formals] using hnames) ?_
      rw [formals, Registry.values_map, hvalues, Registry.values_map, Registry.values,
        List.map_map]
      exact (forall₂_iff_map_eq.1 (hparameters.imp fun _ _ h => h.symm)).symm
    have hb' := (List.forall₂_and_left _ _).1 hb
    refine ⟨hf, bodies, count, as, rfl, ?_, hb'.1, ?_, hm, hn, by rwa [hnames]⟩
    · rw [hf, Registry.names_map]
      exact (forall₂_iff_map_eq.1 (horder.imp fun _ _ h => h.symm)).symm
    · rw [hf, hvalues]
      exact hb'.2
  · rintro ⟨hf, bodies, count, as, rfl, horder, hn, hb, hm, hna, has⟩
    have hnames : g.options.names = headers.names := by
      have := congrArg Registry.names hf
      simpa [formals] using this
    have hparameters : g.options.values.map (·.parameters) =
        headers.entries.map fun e => e.2.parameters := by
      have := congrArg Registry.values hf
      rw [formals, Registry.values_map, Registry.values_map] at this
      rw [this, Registry.values, List.map_map]
      rfl
    have hlength : g.options.values.length = headers.size := by
      rw [Registry.values_length, ← Registry.names_length, hnames, Registry.names_length]
    have ho : headers.withValues g.options.values = g.options :=
      Registry.ext_names_values (by rw [Registry.names_withValues hlength, hnames])
        (Registry.values_withValues hlength)
    rw [hf, Registry.names_map] at horder
    rw [hf] at hb
    refine ⟨_, _, g.options.values, rfl, ⟨bodies, rfl, ?_, ?_, ?_⟩, ho.symm, count, as, rfl, hm,
      hna, by rwa [← hnames]⟩
    · exact (forall₂_iff_map_eq.2 horder.symm).imp
        fun _ _ h => h.symm
    · exact (forall₂_iff_map_eq.2 hparameters.symm).imp fun _ _ h => h.symm
    · exact (List.forall₂_and_left _ _).2 ⟨hn, hb⟩

/-- **The language of option graphs**, up to the end. -/
theorem accepts_graph (limits : Limits) (environment : Environment σ) :
    Accepts (graph limits environment)
      (fun ts g => ∃ s : Sentence, s.words = ts ∧ s.NestedAtMost limits.nestingDepth ∧
        s.Denotes environment g) := by
  refine (Accepts.count_bind fun n _ => Accepts.guard (Accepts.bind
    (N := DenotesBodies limits environment) (Reads.of_entries
    (Reads.iterate_distinct (reads_header environment.symbols) n rfl)) fun headers =>
    accepts_bodies limits environment headers)).congr fun ts g => ?_
  constructor
  · rintro ⟨count, _, n, rfl, hn, h0, _, _, ps, rfl, ⟨headings, rfl, rfl, hh, hnd⟩, rfl, bodies,
      agentCount, as, rfl, horder, hnest, hb, hm, hna, has⟩
    obtain ⟨hnames, hps⟩ := forall₂_and.1 hh
    replace hnames : (formals g).names = headings.map (·.name) :=
      (forall₂_iff_map_eq.1 (hnames.imp fun _ _ h => h.symm)).symm
    refine ⟨⟨count, headings, bodies, agentCount, as⟩, rfl, hnest, ⟨hn, ?_, ?_, ?_, ?_, ?_, hb, hm,
      hna, has⟩⟩
    · rintro rfl
      exact h0 rfl
    · rw [← hnames]
      exact (formals g).nodup
    · exact List.forall₂_map_right_iff.2 hps
    · rw [← hnames, formals, Registry.names_map]
    · rw [horder, hnames]
  · rintro ⟨s, rfl, hnest, hd⟩
    have hnames : (formals g).names = s.headings.map (·.name) := by
      rw [formals, Registry.names_map, hd.names]
    refine ⟨s.count, _, _, rfl, hd.count, mt List.eq_nil_of_length_eq_zero hd.nonempty, _, _,
      formals g, rfl, ⟨s.headings, rfl, rfl, forall₂_and.2 ⟨?_, ?_⟩, (formals g).nodup⟩, rfl,
      s.bodies, s.agentCount, s.agents, rfl, by rw [hnames, hd.order], hnest, hd.bodies,
      hd.agentCount, hd.agentsDistinct, hd.agents⟩
    · exact (forall₂_iff_map_eq.2 hnames.symm).imp fun _ _ h => h.symm
    · exact List.forall₂_map_right_iff.1 hd.headings

/-! ### Sources -/

/-- A request for a word takes the next lexeme away, which has to be a word that is not too long. -/
theorem word_eq_ok_iff {c c' : Cursor} {w : Word} :
    Construct.word.runOn c = (.ok w, c') ↔ ∃ rest, c.reader.rest = .word w :: rest ∧
      w.text.utf8ByteSize ≤ c.reader.limit ∧
      c' = ⟨{ c.reader with rest }, w.span, c.requests + 1⟩ := by
  constructor
  · intro h
    rcases hr : c.reader.rest with _ | ⟨v | v, rest⟩
    · rw [Construct.word_of_error (Reader.word_of_nil hr)] at h
      cases h
    · by_cases hv : v.text.utf8ByteSize ≤ c.reader.limit
      · rw [Construct.word_of_ok (Reader.word_of_le hr hv)] at h
        cases h
        exact ⟨rest, rfl, hv, rfl⟩
      · rw [Construct.word_of_error (Reader.word_of_lt hr (Nat.lt_of_not_le hv))] at h
        cases h
    · rw [Construct.word_of_error (Reader.word_of_stray hr)] at h
      cases h
  · rintro ⟨rest, hr, hw, rfl⟩
    exact Construct.word_of_ok (Reader.word_of_le hr hw)

/-- Requests for words take away all that is left exactly if all that is left are words, none of
them too long. -/
theorem consumes_all_iff {c : Cursor} {ts : List String} :
    (∃ c', c.Consumes ts c' ∧ c'.reader.rest = []) ↔ ∃ words : List Word,
      c.reader.rest = words.map .word ∧
      (∀ w ∈ words, w.text.utf8ByteSize ≤ c.reader.limit) ∧ words.map (·.text) = ts := by
  induction ts generalizing c with
  | nil =>
    constructor
    · rintro ⟨c', hc, he⟩
      obtain rfl := Cursor.consumes_nil.1 hc
      exact ⟨[], he, by simp, rfl⟩
    · rintro ⟨words, hr, -, hw⟩
      obtain rfl := List.map_eq_nil_iff.1 hw
      exact ⟨c, .nil, hr⟩
  | cons t ts ih =>
    constructor
    · rintro ⟨c', hc, he⟩
      obtain ⟨w, c₁, hw, rfl, hs⟩ := Cursor.consumes_cons.1 hc
      obtain ⟨rest, hr, hl, rfl⟩ := word_eq_ok_iff.1 hw
      obtain ⟨words, hwords, hls, rfl⟩ := ih.1 ⟨c', hs, he⟩
      exact ⟨w :: words, by rw [hr, List.map_cons, ← hwords], List.forall_mem_cons.2 ⟨hl, hls⟩, rfl⟩
    · rintro ⟨words, hr, hl, hw⟩
      obtain ⟨w, words, rfl, rfl, rfl⟩ := List.map_eq_cons_iff.1 hw
      obtain ⟨hl, hls⟩ := List.forall_mem_cons.1 hl
      obtain ⟨c', hs, he⟩ := (ih (c := ⟨{ c.reader with rest := words.map .word }, w.span,
        c.requests + 1⟩)).2 ⟨words, rfl, hls, rfl⟩
      exact ⟨c', .cons (word_eq_ok_iff.2 ⟨_, hr, hl, rfl⟩) hs, he⟩

end Grammar

namespace Graph

variable {σ : Type} {limits : Limits} {environment : Environment σ} {source : String} {g : Graph}

theorem ofSource_eq_ok : Graph.ofSource limits environment source = .ok g ↔
    ∃ c', (Construct.graph limits environment).runOn (Cursor.ofSource source limits) =
      (.ok g, c') := by
  simp [Graph.ofSource, Prod.ext_iff]

/-- A source that describes a graph consists of the words of a sentence that denotes it, within the
limits. -/
theorem exists_sentence (h : Graph.ofSource limits environment source = .ok g) :
    ∃ words : List Word, Source.lexemes source = words.map .word ∧
      (∀ w ∈ words, w.text.utf8ByteSize ≤ limits.wordLength) ∧
      ∃ s : Grammar.Sentence, s.words = words.map (·.text) ∧
        s.NestedAtMost limits.nestingDepth ∧ s.Denotes environment g := by
  obtain ⟨_, c', hc, he, s, hs, hn, hd⟩ :=
    (Grammar.accepts_graph limits environment _ g).1 (ofSource_eq_ok.1 h)
  obtain ⟨words, hr, hl, rfl⟩ := Grammar.consumes_all_iff.1 ⟨c', hc, he⟩
  exact ⟨words, hr, hl, s, hs, hn, hd⟩

/-- A graph that is built is denoted by a sentence. -/
theorem denotes_of_ofSource (h : Graph.ofSource limits environment source = .ok g) :
    ∃ s : Grammar.Sentence, s.Denotes environment g := by
  obtain ⟨_, -, -, s, -, -, hd⟩ := exists_sentence h
  exact ⟨s, hd⟩

/-- **Construction accepts the language of intermediate code and nothing else.** A source describes
a graph exactly if it consists of words, none longer than the limit, that are a sentence of the
grammar which is nested no deeper than the limit and denotes this graph. -/
theorem ofSource_eq_ok_iff (limits : Limits) (environment : Environment σ) (source : String)
    (g : Graph) :
    Graph.ofSource limits environment source = .ok g ↔ ∃ words : List Word,
      Source.lexemes source = words.map .word ∧
      (∀ w ∈ words, w.text.utf8ByteSize ≤ limits.wordLength) ∧
      ∃ s : Grammar.Sentence, s.words = words.map (·.text) ∧
        s.NestedAtMost limits.nestingDepth ∧ s.Denotes environment g := by
  rw [ofSource_eq_ok, Grammar.accepts_graph limits environment]
  constructor
  · rintro ⟨ts, c', hc, he, s, hs, hn, hd⟩
    obtain ⟨words, hr, hl, rfl⟩ := Grammar.consumes_all_iff.1 ⟨c', hc, he⟩
    exact ⟨words, hr, hl, s, hs, hn, hd⟩
  · rintro ⟨words, hr, hl, s, hs, hn, hd⟩
    obtain ⟨c', hc, he⟩ := (Grammar.consumes_all_iff
      (c := Cursor.ofSource source limits)).2 ⟨words, hr, hl, rfl⟩
    exact ⟨_, c', hc, he, s, hs, hn, hd⟩

end Graph

end BehaviorEngine
