import BehaviorEngine.Proofs.Engine.Notifications
import BehaviorEngine.Proofs.Sites.Slots

/-!
What a host knows that goes by notice of changes. A call site gives notice whenever slots hold other
values than at its own last evaluation; so a host that keeps what it has computed for each call site
is never stale. A host that keeps it for each symbol can be: the call sites of a symbol share its
slots, and one of them gives no notice of what another one has written.
-/

namespace BehaviorEngine

variable {σ : Type}

/-! ### Notice in between -/

/-- Some slot of a target holds different values in two worlds. -/
def Environment.Differ (environment : Environment σ) (callee : Callee) (w w' : World σ) : Prop :=
  ∃ d i slot, environment.slot? callee d i = some slot ∧ w'.read d slot ≠ w.read d slot

/-- A call site has written its arguments and given notice after that, before it uses its target in
a world. -/
def ToldBefore (environment : Environment σ) (site : Path) (callee : Callee)
    (arguments : List Argument) (before : List (HostEvent σ)) (w : World σ) : Prop :=
  ∃ w₁, before.filter (HostEvent.isAt site) =
    arguments.map (.wrote site callee) ++ [.told site callee w₁] ∧
    w = environment.notify callee w₁

/-- **Targets are never stale**: whenever one is used with other values in its slots than the time
before, notice has been given in between. -/
def NeverStale (environment : Environment σ) (log : List (HostEvent σ)) : Prop :=
  ∀ before between after site site' callee as as' w w',
    log = before ++ .used site callee as w :: (between ++ .used site' callee as' w' :: after) →
    (∀ site as w, .used site callee as w ∉ between) → environment.Differ callee w w' →
    ∃ site w₁, .told site callee w₁ ∈ between

section Logs

variable {environment : Environment σ} {reach : CallSite → Prop} {st st' : Store σ}
  {before after : List (HostEvent σ)} {site : Path} {callee : Callee}
  {arguments : List Argument} {w : World σ}

/-- An evaluation uses a call site once, so it has not used it before. -/
theorem Logged.lastUse_before
    (h : Logged environment reach st (before ++ .used site callee arguments w :: after) st') :
    lastUse site before = none := by
  obtain ⟨w₁, hfilter, -⟩ := h.before_used
  rw [← lastUse_filter, hfilter, lastUse, List.getLast?_eq_none_iff, List.filterMap_eq_nil_iff]
  intro event he
  rcases List.mem_append.1 he with he | he
  · obtain ⟨a, -, ha⟩ := List.mem_flatMap.1 he
    cases callee with
    | option => cases ha
    | input | behavior =>
      obtain rfl := List.mem_singleton.1 ha
      rfl
  · split at he
    · obtain rfl := List.mem_singleton.1 he
      rfl
    · cases he

/-- A call site that has changed arguments gives notice. -/
theorem Logged.toldBefore
    (h : Logged environment reach st (before ++ .used site callee arguments w :: after) st')
    (hcallee : ∀ o, callee ≠ .option o)
    (hgives : callee.gives (st.memory.get? site) arguments = true) :
    ToldBefore environment site callee arguments before w := by
  obtain ⟨w₁, hfilter, hw⟩ := h.before_used
  rw [if_pos hgives, HostEvent.flatMap_pass hcallee] at hfilter
  rw [if_pos hgives] at hw
  exact ⟨w₁, hfilter, hw⟩

theorem Callee.gives_of_ne (hcallee : ∀ o, callee ≠ .option o) {last : Option (List Argument)}
    (hne : arguments ≠ []) (hlast : last ≠ some arguments) :
    callee.gives last arguments = true := by
  cases callee with
  | option o => exact absurd rfl (hcallee o)
  | input | behavior => simp [Callee.gives, hne, hlast]

/-- **Call sites are fresh**: where slots hold other values than at the last use of the same call
site, notice is given. -/
theorem Logged.toldBefore_of_differ
    (h : Logged environment reach st (before ++ .used site callee arguments w :: after) st')
    (hbinds : environment.Binds callee arguments) {as : List Argument} {w₀ : World σ}
    (hlast : st.memory.get? site = some as) (has : environment.Finds callee as w₀)
    (hfinds : environment.Finds callee arguments w) (hdiffer : environment.Differ callee w₀ w) :
    ToldBefore environment site callee arguments before w := by
  obtain ⟨d, i, slot, hslot, hne⟩ := hdiffer
  have hcallee : ∀ o, callee ≠ .option o := by
    rintro o rfl
    cases hslot
  obtain ⟨parameters, hp, hbound⟩ := hbinds.resolve_left fun ⟨o, ho⟩ => hcallee o ho
  refine h.toldBefore hcallee (Callee.gives_of_ne hcallee ?_ ?_)
  · -- A target without arguments has no slots.
    rintro rfl
    have hnone : environment.Finds callee [] w₀ := nofun
    exact hne (hnone.read_eq hfinds hp hbound hslot)
  · intro hsame
    obtain rfl := Option.some_inj.1 (hlast.symm.trans hsame)
    exact hne (has.read_eq hfinds hp hbound hslot)

end Logs

namespace Engine

/-! ### Runs of an engine -/

/-- Each use of a behavior in a cycle finds the arguments of its call site, and so does each use of
a symbol if the graph is separate. -/
theorem Traced.finds {e e' : Engine σ} {environment : Environment σ} {now : Nat}
    {trace : List (Moment σ)} {l : Loaded} (ht : e.Traced now trace e')
    (he : e.environment = environment) (hy : environment.CellsApart) (hl : e.loaded = some l)
    (hr : e.InRange) (hc : e.Complete) {site : Path} {callee : Callee} {arguments : List Argument}
    {w : World σ} (hu : .used site callee arguments w ∈ traceLog ⟨environment, l.graph⟩ trace)
    (hcallee : (∃ b, callee = .behavior b) ∨ (∃ d i, callee = .input d i) ∧ l.graph.Separate) :
    environment.Finds callee arguments w := by
  subst he
  obtain ⟨l', -, -, hlogged⟩ := ht.logged hl hr hc
  have hnodup := ht.nodup_ran? hl hr
  have hbinds := (hlogged.of_mem_used hu).2
  rcases hcallee with ⟨b, rfl⟩ | ⟨⟨d, i, rfl⟩, hsep⟩
  · obtain ⟨before, after, hlog⟩ := List.append_of_mem hu
    rw [hlog] at hlogged hnodup
    exact hlogged.finds_behavior hy hnodup hbinds
  · obtain ⟨m, htrace, rfl⟩ := ht.traces hl
    exact htrace.finds_input hy (hr.loaded l hl).program hsep hu

/-- The uses that a journal tells find the arguments of their call sites, too. -/
theorem Journal.finds {e : Engine σ} {calls : List (Call σ)} {past : List (HostEvent σ)}
    (hy : e.environment.CellsApart) (h : e.Journal calls past) (hr : e.InRange) (hc : e.Complete)
    {l : Loaded} (hl : (e.after calls).loaded = some l) {site : Path} {callee : Callee}
    {arguments : List Argument} {w : World σ} (hu : .used site callee arguments w ∈ past)
    (hcallee : (∃ b, callee = .behavior b) ∨ (∃ d i, callee = .input d i) ∧ l.graph.Separate) :
    e.environment.Finds callee arguments w := by
  refine h.forall_mem (P := fun g event => ∀ site callee arguments w,
    event = .used site callee arguments w →
    ((∃ b, callee = .behavior b) ∨ (∃ d i, callee = .input d i) ∧ g.Separate) →
      e.environment.Finds callee arguments w) hr hc ?_ l hl _ hu site callee arguments w rfl hcallee
  rintro e₁ e' l now trace henvironment hr hc hl ht _ hmem site callee arguments w rfl hcallee
  exact ht.finds henvironment hy hl hr hc hmem hcallee

/-- **Call sites give notice of what has changed since they were used last.** Whatever calls an
engine has taken, when the next cycle reads an input symbol or runs a basic behavior from a call
site, and slots hold other values than at the last use of the same call site, then notice has been
given after all arguments were written; so it has if the call site was not used before, and there
are parameters. Both uses have to find the arguments of the call site in the slots. If cells are
apart, basic behaviors always do, and so do symbols if no binding behind another one refers to the
symbol of its call site. -/
theorem call_sites_stay_fresh (limits : Limits) (environment : Environment σ) (world : World σ)
    (calls : List (Call σ)) (l : Loaded)
    (hl : ((Engine.new limits environment world).after calls).loaded = some l) (now : Nat) :
    (∃ past trace e', (Engine.new limits environment world).Journal calls past ∧
      ((Engine.new limits environment world).after calls).Traced now trace e') ∧
    ∀ past trace e', (Engine.new limits environment world).Journal calls past →
      ((Engine.new limits environment world).after calls).Traced now trace e' →
      ∀ before site callee arguments w after,
        traceLog ⟨environment, l.graph⟩ trace =
          before ++ .used site callee arguments w :: after → (∀ o, callee ≠ .option o) →
        (lastUse site (past ++ before) = none → arguments ≠ [] →
          ToldBefore environment site callee arguments before w) ∧
        ∀ as w₀, lastUse site (past ++ before) = some (as, w₀) →
          (environment.Finds callee as w₀ → environment.Finds callee arguments w →
            environment.Differ callee w₀ w →
              ToldBefore environment site callee arguments before w) ∧
          (environment.CellsApart → (∃ b, callee = .behavior b) ∨ l.graph.Separate →
            environment.Finds callee as w₀ ∧ environment.Finds callee arguments w) := by
  have hr := InRange.new limits environment world
  have hc := Complete.new limits environment world
  refine ⟨hr.exists_journal_traced hl now, ?_⟩
  intro past trace e' hpast ht before site callee arguments w after hlog hcallee
  have he : ((Engine.new limits environment world).after calls).environment = environment :=
    after_environment (Engine.new limits environment world) calls
  have hmemory := hpast.memory_eq hr hc rfl hl site
  have hused : .used site callee arguments w ∈ traceLog ⟨environment, l.graph⟩ trace := by
    rw [hlog]
    exact List.mem_append_right _ (List.mem_cons_self ..)
  obtain ⟨l', -, -, hlogged⟩ := ht.logged hl (hr.after calls) (hc.after calls)
  rw [he] at hlogged
  obtain ⟨hcall, hbinds⟩ := hlogged.of_mem_used hused
  rw [hlog] at hlogged
  have hlast : lastUse site (past ++ before) = lastUse site past := by
    rw [lastUse_append, hlogged.lastUse_before]
    rfl
  rw [hlast]
  refine ⟨fun hnone hne => ?_, fun as w₀ has => ⟨fun hfinds₀ hfinds hdiffer => ?_,
    fun hy hsite => ?_⟩⟩
  · rw [hnone] at hmemory
    refine hlogged.toldBefore hcallee (Callee.gives_of_ne hcallee hne ?_)
    rw [hmemory]
    exact nofun
  · rw [has] at hmemory
    exact hlogged.toldBefore_of_differ hbinds hmemory hfinds₀ hfinds hdiffer
  · obtain ⟨callee₀, hused₀⟩ := exists_used_of_lastUse has
    obtain rfl := congrArg CallSite.callee ((hpast.hasCall hr hc hl hused₀).1.eq_of_path hcall rfl)
    have hsite : (∃ b, callee₀ = .behavior b) ∨
        (∃ d i, callee₀ = .input d i) ∧ l.graph.Separate := by
      cases callee₀ with
      | input d i => exact hsite.imp_right fun hsep => ⟨⟨d, i, rfl⟩, hsep⟩
      | behavior b => exact .inl ⟨b, rfl⟩
      | option o => exact absurd rfl (hcallee o)
    exact ⟨hpast.finds hy hr hc hl hused₀ hsite,
      ht.finds he hy hl (hr.after calls) (hc.after calls) hused hsite⟩

/-! ### A symbol with two call sites -/

theorem slot?_mirror {callee : Callee} {d : Domain} {i : Nat} {slot : String}
    (h : mirror.slot? callee d i = some slot) :
    callee = .input .boolean 0 ∧ d = .boolean ∧ i = 0 ∧ slot = "given" := by
  match callee, d, i, h with
  | .input .boolean 0, .boolean, 0, h => exact ⟨rfl, rfl, rfl, (Option.some_inj.1 h).symm⟩

theorem output_at?_mirror {d : Domain} {k : Nat} {symbol : OutputSymbol (List Note) d}
    (h : (mirror.symbols.outputs.get d).at? k = some symbol) :
    d = .boolean ∧ symbol.binding = .cell "out" := by
  cases d with
  | decimal | enumerated => cases h
  | boolean =>
    cases k with
    | zero =>
      cases h
      exact ⟨rfl, rfl⟩
    | succ k => cases h

/-- To give notice or to read the symbol is to have a note taken; all cells keep their values. -/
theorem cells_mirror (callee : Callee) (w : World (List Note)) :
    (mirror.notify callee w).cells = w.cells ∧ (mirror.use callee w).cells = w.cells :=
  match callee with
  | .input .boolean 0 => ⟨rfl, rfl⟩
  | .input .boolean (_ + 1) => ⟨rfl, rfl⟩
  | .input .decimal _ => ⟨rfl, rfl⟩
  | .input .enumerated _ => ⟨rfl, rfl⟩
  | .behavior _ => ⟨rfl, rfl⟩
  | .option _ => ⟨rfl, rfl⟩

theorem cellsApart_mirror : mirror.CellsApart where
  distinct := by
    intro callee callee' d i i' slot h h'
    obtain ⟨rfl, rfl, rfl, rfl⟩ := slot?_mirror h
    obtain ⟨rfl, -, rfl, -⟩ := slot?_mirror h'
    exact ⟨rfl, rfl⟩
  notify := fun callee w _ d _ slot _ =>
    congrArg (Cells.read · d slot) (cells_mirror callee w).1
  use := fun callee w _ d _ slot _ => congrArg (Cells.read · d slot) (cells_mirror callee w).2
  fetch := by
    intro d k symbol hk w _ _ _ _ _
    obtain ⟨-, hcell⟩ := output_at?_mirror hk
    rw [hcell]
    rfl
  store := by
    intro d k symbol hk x w callee kind i slot hslot
    obtain ⟨rfl, hcell⟩ := output_at?_mirror hk
    obtain ⟨-, rfl, -, rfl⟩ := slot?_mirror hslot
    rw [hcell]
    exact World.read_write_of_name_ne _ _ _ _ (by decide)

/-- What the host notes of an event. -/
def noted? : HostEvent (List Note) → Option Note
  | .told _ (.input .boolean 0) _ => some .told
  | .used _ (.input .boolean 0) _ w => some (.read (w.read .boolean "given"))
  | _ => none

/-- The host notes what happens. -/
theorem host_mirror {w w' : World (List Note)} {log : List (HostEvent (List Note))}
    (h : Happens mirror w log w') : w'.host = w.host ++ log.filterMap noted? := by
  induction h with
  | nil => exact (List.append_nil _).symm
  | @cons w w₁ w₂ event events h _ ih =>
    have hevent : w₁.host = w.host ++ (noted? event).toList := by
      cases h with
      | wrote => exact (List.append_nil _).symm
      | @told _ callee =>
        match callee with
        | .input .boolean 0 => rfl
        | .input .boolean (_ + 1) | .input .decimal _ | .input .enumerated _ | .behavior _
        | .option _ => exact (List.append_nil _).symm
      | @used _ callee =>
        match callee with
        | .input .boolean 0 => rfl
        | .input .boolean (_ + 1) | .input .decimal _ | .input .enumerated _ | .behavior _
        | .option _ => exact (List.append_nil _).symm
      | fetched hk =>
        obtain ⟨-, hcell⟩ := output_at?_mirror hk
        rw [hcell]
        exact (List.append_nil _).symm
      | stored hk =>
        obtain ⟨rfl, hcell⟩ := output_at?_mirror hk
        rw [hcell]
        exact (List.append_nil _).symm
    rw [ih, hevent, List.filterMap_cons]
    cases noted? event <;> simp

/-- Two readings of the symbol behind one another, with different arguments, are stale. -/
theorem not_neverStale_mirror {log : List (HostEvent (List Note))} {x y : Bool} {notes : List Note}
    (h : log.filterMap noted? = .read x :: .read y :: notes) (hne : x ≠ y)
    (past : List (HostEvent (List Note))) : ¬ NeverStale mirror (past ++ log) := by
  obtain ⟨before, first, rest, rfl, -, hfirst, hrest⟩ := List.filterMap_eq_cons_iff.1 h
  obtain ⟨between, second, after, rfl, hbetween, hsecond, -⟩ := List.filterMap_eq_cons_iff.1 hrest
  have hread : ∀ event z, noted? event = some (.read z) → ∃ site as w,
      event = .used site (.input .boolean 0) as w ∧ w.read .boolean "given" = z := by
    intro event z hz
    unfold noted? at hz
    split at hz
    · cases hz
    · cases hz
      exact ⟨_, _, _, rfl, rfl⟩
    · cases hz
  obtain ⟨site, as, w, rfl, rfl⟩ := hread _ _ hfirst
  obtain ⟨site', as', w', rfl, rfl⟩ := hread _ _ hsecond
  intro hfresh
  obtain ⟨site₁, w₁, htold⟩ := hfresh (past ++ before) between after site site'
    (.input .boolean 0) as as' w w' (by simp) (fun _ _ _ hused => nomatch hbetween _ hused)
    ⟨.boolean, 0, "given", rfl, hne.symm⟩
  exact nomatch hbetween _ htold

/-- The host notes what happens in a cycle. -/
theorem Traced.host_mirror {e e' : Engine (List Note)} {now : Nat}
    {trace : List (Moment (List Note))} {l : Loaded} (ht : e.Traced now trace e')
    (he : e.environment = mirror) (hl : e.loaded = some l) (hr : e.InRange) (hc : e.Complete) :
    e'.world.host = e.world.host ++ (traceLog ⟨mirror, l.graph⟩ trace).filterMap noted? := by
  obtain ⟨l', -, -, hlogged⟩ := ht.logged hl hr hc
  rw [he] at hlogged
  exact Engine.host_mirror hlogged.happens

/-- **A host that goes by notice alone can be stale.** Though its cells are apart, it is told
nothing in the second cycle, while the symbol is read with one argument and then with another. -/
theorem stale_mirror : mirror.CellsApart ∧ ∃ past,
    mirrorEngine.Journal [.create mirrorSource, .execute 0, .execute 1] past ∧
    ¬ NeverStale mirror past := by
  refine ⟨cellsApart_mirror, ?_⟩
  have hsome : (mirrorEngine.after [.create mirrorSource, .execute 0]).loaded.isSome = true := by
    decide +kernel
  obtain ⟨l, hl⟩ := Option.isSome_iff_exists.1 hsome
  obtain ⟨past, hpast⟩ := exists_journal mirrorEngine [.create mirrorSource, .execute 0]
  have hr : mirrorEngine.InRange := .new _ _ _
  have hc : mirrorEngine.Complete := .new _ _ _
  have he := after_environment mirrorEngine [.create mirrorSource, .execute 0]
  obtain ⟨trace, e', ht⟩ := (hr.after [.create mirrorSource, .execute 0]).exists_traced hl 1
  have hhost := ht.host_mirror he hl (hr.after _) (hc.after _)
  have hafter : mirrorEngine.after [.create mirrorSource, .execute 0, .execute 1] = e' :=
    (after_append mirrorEngine [.create mirrorSource, .execute 0] (.execute 1)).trans ht.call_eq
  obtain ⟨hfirst, hsecond⟩ := notes_mirror
  rw [← hafter, hsecond, hfirst] at hhost
  have hnotes : (traceLog ⟨mirror, l.graph⟩ trace).filterMap noted? =
      [.read true, .read false] := by
    simpa using hhost.symm
  exact ⟨_, hpast.cycle hl ht, not_neverStale_mirror hnotes (by decide) past⟩

theorem call_sites_stay_fresh_mirror : ∃ l past trace e',
    (mirrorEngine.after [.create mirrorSource, .execute 0]).loaded = some l ∧
    l.graph.Separate ∧ mirrorEngine.Journal [.create mirrorSource, .execute 0] past ∧
    (mirrorEngine.after [.create mirrorSource, .execute 0]).Traced 1 trace e' ∧
    ∀ before site callee arguments w after,
      traceLog ⟨mirror, l.graph⟩ trace = before ++ .used site callee arguments w :: after →
      (∀ o, callee ≠ .option o) → ∀ as w₀, lastUse site (past ++ before) = some (as, w₀) →
        mirror.Differ callee w₀ w → ToldBefore mirror site callee arguments before w := by
  have hany : (mirrorEngine.after [.create mirrorSource, .execute 0]).loaded.any (fun l =>
      l.graph.options.values.all fun n => n.exprs.all fun x => x.2.separate) = true := by
    decide +kernel
  obtain ⟨l, hl, hall⟩ := (Option.any_eq_true _ _).1 hany
  have hsep : l.graph.Separate := fun n hn x hx =>
    List.all_eq_true.1 (List.all_eq_true.1 hall n hn) x hx
  obtain ⟨⟨past, trace, e', hpast, ht⟩, hlaw⟩ := call_sites_stay_fresh _ _ _ _ l hl 1
  refine ⟨l, past, trace, e', hl, hsep, hpast, ht, ?_⟩
  intro before site callee arguments w after hlog hcallee as w₀ hlast hdiffer
  obtain ⟨htold, hfinds⟩ :=
    (hlaw past trace e' hpast ht before site callee arguments w after hlog hcallee).2 as w₀ hlast
  obtain ⟨hfinds₀, hfinds⟩ := hfinds cellsApart_mirror (.inr hsep)
  exact htold hfinds₀ hfinds hdiffer

end Engine

end BehaviorEngine
