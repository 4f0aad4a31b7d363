import BehaviorEngine.Proofs.Sites.Log

/-!
Visits of call sites. An evaluation visits each of its call sites at most once. A visit passes on
all arguments of the site, gives notice if there are some and they are not those that the site
remembers, and is remembered; what is not visited is remembered as before.
-/

namespace BehaviorEngine

open Partial Evaluate CallSite

variable {σ : Type}

/-! ### Memory -/

namespace Memory

variable {m : Memory} {site other : Path} {arguments : List Argument}

theorem lookup_cons {entries : List (Path × List Argument)} :
    ((site, arguments) :: entries).lookup other =
      if other = site then some arguments else entries.lookup other := by
  rw [List.lookup_cons]
  by_cases h : other = site
  · simp [h]
  · rw [beq_false_of_ne h, if_neg h]

theorem lookup_store (entries : List (Path × List Argument)) :
    (store site arguments entries).lookup other =
      if other = site then some arguments else entries.lookup other := by
  induction entries with
  | nil => exact lookup_cons
  | cons entry entries ih =>
    obtain ⟨path, old⟩ := entry
    unfold store
    by_cases hp : path = site
    · subst hp
      rw [if_pos rfl, lookup_cons, lookup_cons]
      split <;> rfl
    · rw [if_neg hp, lookup_cons, lookup_cons, ih]
      by_cases h : other = path
      · rw [if_pos h, if_neg (h ▸ hp), if_pos h]
      · rw [if_neg h, if_neg h]

@[simp] theorem get?_remember_self : (m.remember site arguments).get? site = some arguments :=
  (lookup_store m.entries).trans (if_pos rfl)

theorem get?_remember_of_ne (h : other ≠ site) :
    (m.remember site arguments).get? other = m.get? other :=
  (lookup_store m.entries).trans (if_neg h)

end Memory

/-! ### Visits -/

/-- All arguments that are passed belong to one parameter each, and none is left out. -/
def Environment.Binds (environment : Environment σ) (callee : Callee) (arguments : List Argument) :
    Prop :=
  (∃ o, callee = .option o) ∨
    ∃ parameters, environment.parameters? callee = some parameters ∧ parameters.BoundBy arguments

/-- What a visit of a call site that remembers `last` lists at that site. -/
def HostEvent.visit (environment : Environment σ) (site : Path) (callee : Callee)
    (last : Option (List Argument)) (arguments : List Argument) (w : World σ) :
    List (HostEvent σ) :=
  arguments.flatMap (HostEvent.pass site callee) ++
    HostEvent.call environment site callee (callee.gives last arguments) arguments w

/-- **What can happen at a site**: it is not visited and remembered as before; or it is a call site
of some of those that can be reached, is visited once, and the arguments are remembered. -/
def Visits (environment : Environment σ) (reach : CallSite → Prop) (site : Path)
    (last : Option (List Argument)) (events : List (HostEvent σ)) (last' : Option (List Argument)) :
    Prop :=
  (events = [] ∧ last' = last) ∨
    ∃ callee arguments w, reach ⟨site, callee, arguments.map Argument.key⟩ ∧
      environment.Binds callee arguments ∧
      events = HostEvent.visit environment site callee last arguments w ∧ last' = some arguments

/-- **What an evaluation does** that can reach some call sites: its log tells what happens to the
host, and each site is visited at most once. -/
structure Logged (environment : Environment σ) (reach : CallSite → Prop) (st : Store σ)
    (log : List (HostEvent σ)) (st' : Store σ) : Prop where
  happens : Happens environment st.world log st'.world
  visits : ∀ site, Visits environment reach site (st.memory.get? site)
    (log.filter (HostEvent.isAt site)) (st'.memory.get? site)

section Visits

variable {environment : Environment σ} {reach reach' : CallSite → Prop} {site : Path}
  {last last' last'' : Option (List Argument)} {xs ys : List (HostEvent σ)}

theorem Visits.mono (h : Visits environment reach site last xs last')
    (hr : ∀ c, reach c → reach' c) : Visits environment reach' site last xs last' :=
  h.imp_right fun ⟨callee, arguments, w, hreach, h⟩ => ⟨callee, arguments, w, hr _ hreach, h⟩

/-- What cannot be reached is not visited. -/
theorem Visits.skip (h : Visits environment reach site last xs last')
    (hr : ∀ c, reach c → c.path ≠ site) : xs = [] ∧ last' = last :=
  h.resolve_right fun ⟨_, _, _, hreach, _⟩ => hr _ hreach rfl

theorem Visits.append (h : Visits environment reach site last xs last')
    (h' : Visits environment reach' site last' ys last'')
    (hr : ∀ c c', reach c → reach' c' → c.path ≠ c'.path) :
    Visits environment (fun c => reach c ∨ reach' c) site last (xs ++ ys) last'' := by
  rcases h with ⟨rfl, rfl⟩ | ⟨callee, arguments, w, hreach, hb, rfl, rfl⟩
  · exact h'.mono fun _ => .inr
  · obtain ⟨rfl, rfl⟩ := h'.skip fun c hc hp => hr _ c hreach hc hp.symm
    exact .inr ⟨callee, arguments, w, .inl hreach, hb, List.append_nil _, rfl⟩

end Visits

namespace Logged

variable {environment : Environment σ} {reach reach' : CallSite → Prop} {st st₁ st' : Store σ}
  {xs ys : List (HostEvent σ)}

theorem mono (h : Logged environment reach st xs st') (hr : ∀ c, reach c → reach' c) :
    Logged environment reach' st xs st' :=
  ⟨h.happens, fun site => (h.visits site).mono hr⟩

theorem nil (st : Store σ) : Logged environment reach st [] st :=
  ⟨.nil _, fun _ => .inl ⟨rfl, rfl⟩⟩

/-- An event that belongs to no call site. -/
theorem single {event : HostEvent σ} (hs : event.site? = none) {w : World σ}
    (h : event.Takes environment st.world w) :
    Logged environment reach st [event] { st with world := w } :=
  ⟨.single h, fun _ => .inl ⟨by simp [HostEvent.isAt, hs], rfl⟩⟩

theorem append (h : Logged environment reach st xs st₁) (h' : Logged environment reach' st₁ ys st')
    (hr : ∀ c c', reach c → reach' c' → c.path ≠ c'.path) :
    Logged environment (fun c => reach c ∨ reach' c) st (xs ++ ys) st' := by
  refine ⟨h.happens.append h'.happens, fun site => ?_⟩
  rw [List.filter_append]
  exact (h.visits site).append (h'.visits site) hr

/-- Two parts of an evaluation that reach call sites which are apart. -/
theorem append_calls {calls calls' : List CallSite}
    (h : Logged environment (· ∈ calls) st xs st₁) (h' : Logged environment (· ∈ calls') st₁ ys st')
    (hn : ((calls ++ calls').map CallSite.path).Nodup) :
    Logged environment (· ∈ calls ++ calls') st (xs ++ ys) st' := by
  rw [List.map_append, List.nodup_append] at hn
  refine (h.append h' fun c c' hc hc' => ?_).mono fun c => List.mem_append.2
  exact hn.2.2 _ (List.mem_map_of_mem hc) _ (List.mem_map_of_mem hc')

end Logged

section Reach

variable {environment : Environment σ} {reach : CallSite → Prop} {st st' : Store σ}
  {log : List (HostEvent σ)}

theorem HostEvent.callee?_of_mem_visit {site : Path} {callee : Callee}
    {last : Option (List Argument)} {arguments : List Argument} {w : World σ} {event : HostEvent σ}
    (h : event ∈ HostEvent.visit environment site callee last arguments w) :
    event.callee? = some callee := by
  rcases List.mem_append.1 h with h | h
  · obtain ⟨a, -, h⟩ := List.mem_flatMap.1 h
    unfold HostEvent.pass at h
    split at h
    · cases h
    · obtain rfl := List.mem_singleton.1 h
      rfl
  · unfold HostEvent.call at h
    split at h
    · rcases List.mem_pair.1 h with rfl | rfl <;> rfl
    · obtain rfl := List.mem_singleton.1 h
      rfl

/-- What happens at a site is that a call site which can be reached is visited. -/
theorem Visits.reach_of_mem {site : Path} {last last' : Option (List Argument)}
    {events : List (HostEvent σ)} (h : Visits environment reach site last events last')
    {event : HostEvent σ} (he : event ∈ events) {callee : Callee}
    (hc : event.callee? = some callee) : ∃ keys, reach ⟨site, callee, keys⟩ := by
  rcases h with ⟨rfl, -⟩ | ⟨callee', arguments, w, hreach, -, rfl, -⟩
  · cases he
  · obtain rfl := Option.some_inj.1 (hc.symm.trans (HostEvent.callee?_of_mem_visit he))
    exact ⟨_, hreach⟩

theorem HostEvent.used_mem_call {site site' : Path} {callee callee' : Callee} {changed : Bool}
    {arguments arguments' : List Argument} {w w' : World σ}
    (h : .used site' callee' arguments' w' ∈
      HostEvent.call environment site callee changed arguments w) :
    site' = site ∧ callee' = callee ∧ arguments' = arguments ∧
      w' = if changed then environment.notify callee w else w := by
  unfold HostEvent.call at h
  split at h <;> simp_all

theorem HostEvent.used_mem_visit {site site' : Path} {callee callee' : Callee}
    {last : Option (List Argument)} {arguments arguments' : List Argument} {w w' : World σ}
    (h : .used site' callee' arguments' w' ∈
      HostEvent.visit environment site callee last arguments w) :
    callee' = callee ∧ arguments' = arguments ∧
      w' = if callee.gives last arguments then environment.notify callee w else w := by
  rcases List.mem_append.1 h with h | h
  · obtain ⟨a, -, h⟩ := List.mem_flatMap.1 h
    cases callee <;> simp [HostEvent.pass] at h
  · exact (HostEvent.used_mem_call h).2

/-- Arguments are written, unless they are for an option. -/
theorem HostEvent.flatMap_pass {site : Path} {callee : Callee} {arguments : List Argument}
    (hcallee : ∀ o, callee ≠ .option o) :
    arguments.flatMap (HostEvent.pass site callee : Argument → List (HostEvent σ)) =
      arguments.map (.wrote site callee) := by
  rw [List.map_eq_flatMap]
  cases callee with
  | option o => exact absurd rfl (hcallee o)
  | input | behavior => rfl

/-- Where something happens at a call site, its target is used. -/
theorem Visits.exists_used {site : Path} {last last' : Option (List Argument)}
    {events : List (HostEvent σ)} (h : Visits environment reach site last events last')
    {event : HostEvent σ} (he : event ∈ events) {callee : Callee}
    (hc : event.callee? = some callee) : ∃ arguments w, .used site callee arguments w ∈ events := by
  rcases h with ⟨rfl, -⟩ | ⟨callee', arguments, w, -, -, rfl, -⟩
  · cases he
  · obtain rfl := Option.some_inj.1 (hc.symm.trans (HostEvent.callee?_of_mem_visit he))
    rw [HostEvent.visit, HostEvent.call_eq]
    exact ⟨arguments, _, List.mem_append_right _ (List.mem_append_right _
      (List.mem_singleton_self _))⟩

/-- A visit uses its call site with the arguments that it passes on. -/
theorem HostEvent.lastUse_visit {site : Path} {callee : Callee} {last : Option (List Argument)}
    {arguments : List Argument} {w : World σ} :
    (lastUse site (HostEvent.visit environment site callee last arguments w)).map Prod.fst =
      some arguments := by
  rw [HostEvent.visit, lastUse_append, HostEvent.call]
  split <;> simp [lastUse, HostEvent.usedAt?]

/-- **What a site remembers is how it was used last.** -/
theorem Visits.last_eq {site : Path} {last last' : Option (List Argument)}
    {events : List (HostEvent σ)} (h : Visits environment reach site last events last') :
    last' = ((lastUse site events).map Prod.fst).or last := by
  rcases h with ⟨rfl, rfl⟩ | ⟨callee, arguments, w, -, -, rfl, rfl⟩
  · rfl
  · rw [HostEvent.lastUse_visit]
    rfl

theorem Logged.memory_eq (h : Logged environment reach st log st') (site : Path) :
    st'.memory.get? site = ((lastUse site log).map Prod.fst).or (st.memory.get? site) := by
  rw [(h.visits site).last_eq, lastUse_filter]

theorem HostEvent.mem_filter_isAt {event : HostEvent σ} (he : event ∈ log) {site : Path}
    (hs : event.site? = some site) : event ∈ log.filter (HostEvent.isAt site) :=
  List.mem_filter.2 ⟨he, by simp [HostEvent.isAt, hs]⟩

/-- What is used is a call site that can be reached, with all of its arguments. -/
theorem Logged.of_mem_used (h : Logged environment reach st log st') {site : Path}
    {callee : Callee} {arguments : List Argument} {w : World σ}
    (hu : .used site callee arguments w ∈ log) :
    reach ⟨site, callee, arguments.map Argument.key⟩ ∧ environment.Binds callee arguments := by
  have hmem := HostEvent.mem_filter_isAt hu rfl
  rcases h.visits site with ⟨hnil, -⟩ | ⟨callee', arguments', w', hreach, hbinds, hvisit, -⟩
  · rw [hnil] at hmem
    cases hmem
  · rw [hvisit] at hmem
    obtain ⟨rfl, rfl, -⟩ := HostEvent.used_mem_visit hmem
    exact ⟨hreach, hbinds⟩

/-- Where no behavior can be reached, none runs. -/
theorem Logged.ran?_eq_nil (h : Logged environment reach st log st')
    (hr : ∀ c, reach c → ∀ b, c.callee ≠ .behavior b) : log.filterMap HostEvent.ran? = [] := by
  refine List.filterMap_eq_nil_iff.2 fun event he => ?_
  cases event with
  | used site callee arguments w =>
    obtain ⟨keys, hreach⟩ := (h.visits site).reach_of_mem (HostEvent.mem_filter_isAt he rfl) rfl
    cases callee with
    | behavior b => exact absurd rfl (hr _ hreach b)
    | input | option => rfl
  | wrote | told | fetched | stored => rfl

end Reach

/-! ### Bindings -/

/-- **What the bindings of a call site do** that have been evaluated: the site passes on the
arguments, remembers what it did, and the sites in the bindings are visited. -/
structure Passes (environment : Environment σ) (reach : CallSite → Prop) (path : Path)
    (callee : Callee) (st : Store σ) (log : List (HostEvent σ)) (arguments : List Argument)
    (st' : Store σ) : Prop where
  happens : Happens environment st.world log st'.world
  passed : log.filter (HostEvent.isAt path) = arguments.flatMap (HostEvent.pass path callee)
  kept : st'.memory.get? path = st.memory.get? path
  visits : ∀ site ≠ path, Visits environment reach site (st.memory.get? site)
    (log.filter (HostEvent.isAt site)) (st'.memory.get? site)

section Bindings

variable {environment : Environment σ} {path : Path} {callee : Callee}

/-- Arguments can be passed on: the target is an option, or has parameters at the host. -/
def Environment.Accepts (environment : Environment σ) (callee : Callee) : Prop :=
  (∃ o, callee = .option o) ∨ ∃ parameters, environment.parameters? callee = some parameters

theorem Environment.write_of_parameters? {parameters : Parameters String}
    (h : environment.parameters? callee = some parameters) :
    environment.write callee = writeSlot parameters := by
  rw [Environment.write, h]
  rfl

/-- Passing an argument on changes the host as the log tells, and nothing that is remembered. -/
theorem Environment.Accepts.write_eq_some (hc : environment.Accepts callee) (site : Path)
    {a : Argument} {st st' : Store σ} {u : Unit}
    (h : environment.write callee a st = some (u, st')) :
    Happens environment st.world (HostEvent.pass site callee a) st'.world ∧
      st'.memory = st.memory := by
  rcases hc with ⟨o, rfl⟩ | ⟨parameters, hp⟩
  · obtain ⟨-, rfl⟩ := pure_eq_some.1 h
    exact ⟨.nil _, rfl⟩
  · rw [Environment.write_of_parameters? hp] at h
    obtain ⟨parameter, hparameter, rfl⟩ := writeSlot_eq_some h
    have hslot : environment.slot? callee a.domain a.index = some parameter.slot := by
      simp [Environment.slot?, hp, hparameter]
    refine ⟨?_, rfl⟩
    cases callee with
    | option => cases hp
    | input | behavior => exact .single (.wrote hslot _)

theorem HostEvent.filter_pass_self {a : Argument} :
    (HostEvent.pass path callee a : List (HostEvent σ)).filter (HostEvent.isAt path) =
      HostEvent.pass path callee a := by
  cases callee <;> simp [HostEvent.pass, HostEvent.isAt, HostEvent.site?]

theorem HostEvent.filter_pass_of_ne {a : Argument} {site : Path} (h : site ≠ path) :
    (HostEvent.pass path callee a : List (HostEvent σ)).filter (HostEvent.isAt site) = [] := by
  cases callee <;> simp [HostEvent.pass, HostEvent.isAt, HostEvent.site?, Ne.symm h]

theorem HostEvent.filter_call_self {changed : Bool} {arguments : List Argument} {w : World σ} :
    (HostEvent.call environment path callee changed arguments w).filter (HostEvent.isAt path) =
      HostEvent.call environment path callee changed arguments w := by
  cases changed <;> simp [HostEvent.call, HostEvent.isAt, HostEvent.site?]

theorem HostEvent.filter_call_of_ne {changed : Bool} {arguments : List Argument} {w : World σ}
    {site : Path} (h : site ≠ path) :
    (HostEvent.call environment path callee changed arguments w).filter (HostEvent.isAt site) =
      [] := by
  cases changed <;> simp [HostEvent.call, HostEvent.isAt, HostEvent.site?, Ne.symm h]

theorem Passes.nil (st : Store σ) {reach : CallSite → Prop} :
    Passes environment reach path callee st [] [] st :=
  ⟨.nil _, rfl, rfl, fun _ _ => .inl ⟨rfl, rfl⟩⟩

/-- A binding is evaluated and passed on, and then those behind it. -/
theorem Passes.cons (hc : environment.Accepts callee) {k : Nat} {calls rest : List CallSite}
    {st st₁ st₂ st₃ : Store σ} {xs ys : List (HostEvent σ)} {a : Argument}
    {arguments : List Argument} {u : Unit}
    (hb : Branch path k (calls ++ rest))
    (h : Logged environment (· ∈ calls) st xs st₁)
    (hw : environment.write callee a st₁ = some (u, st₂))
    (hs : Passes environment (· ∈ rest) path callee st₂ ys arguments st₃) :
    Passes environment (· ∈ calls ++ rest) path callee st
      (xs ++ (HostEvent.pass path callee a ++ ys)) (a :: arguments) st₃ := by
  obtain ⟨hhappens, hmemory⟩ := hc.write_eq_some path hw
  have hself := (h.visits path).skip fun c hcalls => hb.path_ne (List.mem_append_left _ hcalls)
  refine ⟨h.happens.append (hhappens.append hs.happens), ?_, ?_, fun site hne => ?_⟩
  · rw [List.filter_append, List.filter_append, hself.1, HostEvent.filter_pass_self, hs.passed]
    rfl
  · rw [hs.kept, hmemory, hself.2]
  · have hvisits := hs.visits site hne
    rw [hmemory] at hvisits
    rw [List.filter_append, List.filter_append, HostEvent.filter_pass_of_ne hne, List.nil_append]
    have hn := hb.nodup
    rw [List.map_append, List.nodup_append] at hn
    refine ((h.visits site).append hvisits fun c c' hcalls hrest => ?_).mono fun c =>
      List.mem_append.2
    exact hn.2.2 _ (List.mem_map_of_mem hcalls) _ (List.mem_map_of_mem hrest)

/-- While the bindings of a call site are evaluated, no behavior runs if none can be reached. -/
theorem Passes.ran?_eq_nil {reach : CallSite → Prop} {st st' : Store σ} {log : List (HostEvent σ)}
    {arguments : List Argument} (h : Passes environment reach path callee st log arguments st')
    (hr : ∀ c, reach c → ∀ b, c.callee ≠ .behavior b) : log.filterMap HostEvent.ran? = [] := by
  refine List.filterMap_eq_nil_iff.2 fun event he => ?_
  cases event with
  | used site callee' arguments' w =>
    have hmem := HostEvent.mem_filter_isAt he rfl
    by_cases hsite : site = path
    · -- The call site itself only passes its arguments on.
      rw [hsite, h.passed] at hmem
      obtain ⟨a, -, ha⟩ := List.mem_flatMap.1 hmem
      cases callee <;> simp [HostEvent.pass] at ha
    · obtain ⟨keys, hreach⟩ := (h.visits site hsite).reach_of_mem hmem rfl
      cases callee' with
      | behavior b => exact absurd rfl (hr _ hreach b)
      | input | option => rfl
  | wrote | told | fetched | stored => rfl

/-- **A call site is visited once its bindings are evaluated**, and remembers its arguments. -/
theorem Passes.call {calls : List CallSite} {keys : List (Domain × Nat)} {st st₁ : Store σ}
    {xs : List (HostEvent σ)} {arguments : List Argument} (hb : Branch path 0 calls)
    (h : Passes environment (· ∈ calls) path callee st xs arguments st₁)
    (hk : arguments.map Argument.key = keys) (hbinds : environment.Binds callee arguments) :
    Logged environment (· ∈ ⟨path, callee, keys⟩ :: calls) st
      (xs ++ HostEvent.call environment path callee
        (callee.gives (st₁.memory.get? path) arguments) arguments st₁.world)
      ⟨environment.use callee (if callee.gives (st₁.memory.get? path) arguments
        then environment.notify callee st₁.world else st₁.world),
        st₁.memory.remember path arguments⟩ := by
  refine ⟨h.happens.append (.call _), fun site => ?_⟩
  rw [List.filter_append]
  by_cases hsite : site = path
  · subst hsite
    refine .inr ⟨callee, arguments, st₁.world, hk ▸ List.mem_cons_self .., hbinds, ?_,
      Memory.get?_remember_self⟩
    rw [h.passed, HostEvent.filter_call_self, HostEvent.visit, h.kept]
  · rw [HostEvent.filter_call_of_ne hsite, List.append_nil, Memory.get?_remember_of_ne hsite]
    exact (h.visits site hsite).mono fun c => List.mem_cons_of_mem _

end Bindings

/-! ### Evaluations -/

section Evaluation

variable {environment : Environment σ} {s : Surroundings σ} {own : Domain → Nat}

/-- A symbol is read, with notice before that if its arguments have changed. -/
theorem Evaluate.readInput_eq_some {d : Domain} {i : Nat} {symbol : InputSymbol σ d}
    (hi : (environment.symbols.inputs.get d).at? i = some symbol) {changed : Bool} {x : d.Value}
    {st st' : Store σ} (h : readInput symbol changed st = some (x, st')) :
    st' = ⟨environment.use (.input d i)
      (if changed then environment.notify (.input d i) st.world else st.world), st.memory⟩ := by
  have huse : ∀ w, environment.use (.input d i) w = (symbol.binding.read w).2 := by
    simp [Environment.use, hi]
  have hnotify : ∀ w, environment.notify (.input d i) w = (symbol.parametersChanged.getD id) w := by
    intro w
    cases hn : symbol.parametersChanged <;> simp [Environment.notify, hi, hn]
  cases changed with
  | true =>
    obtain ⟨_, st₁, hhost, h⟩ := bind_eq_some.1 h
    obtain rfl := modify_eq_some.1 hhost
    obtain ⟨-, rfl⟩ := Prod.mk.inj (modifyGet_eq_some.1 h)
    simp [huse, hnotify]
  | false =>
    obtain ⟨-, rfl⟩ := Prod.mk.inj (modifyGet_eq_some.1 h)
    simp [huse]

/-- The call sites in a part of an evaluation. -/
def Part.calls (part : Part σ) : List CallSite := part.expression.calls part.site

theorem Evaluate.next_sublist {α ε : Type} {x : Evaluate σ α} {st : Store σ}
    {f : α → Store σ → List ε} {ys : List ε} (h : ∀ a st', (f a st').Sublist ys) :
    (x.next st f).Sublist ys := by
  unfold Evaluate.next
  split
  · exact h _ _
  · exact List.nil_sublist _

theorem Expr.calls_connectedParts {path : Path} {op : Connective} {k : Nat}
    {es : List (Expr .boolean)} {st : Store σ} :
    ((Expr.connectedParts s path op k es st).flatMap Part.calls).Sublist
      (Expr.allCalls path k es) := by
  induction es generalizing k st with
  | nil => exact List.nil_sublist _
  | cons e es ih =>
    rw [Expr.flatMap_connectedParts]
    refine (List.Sublist.refl _).append (next_sublist fun x st' => ?_)
    split
    · exact ih
    · exact List.nil_sublist _

/-- The call sites in the parts of an evaluation stand in the expression, in that order. -/
theorem Expr.calls_parts {path : Path} {d : Domain} {e : Expr d} {st : Store σ} :
    ((e.parts s path st).flatMap Part.calls).Sublist (e.calls path) := by
  cases e with
  | choice c y n =>
    rw [Expr.flatMap_parts_choice]
    refine (List.Sublist.refl _).append (next_sublist fun b st' => ?_)
    cases b with
    | true => exact List.sublist_append_left _ _
    | false => exact List.sublist_append_right _ _
  | arithmetic | relation | sameElement =>
    rw [Expr.parts, Expr.flatMap_pairParts]
    exact (List.Sublist.refl _).append (next_sublist fun _ _ => List.Sublist.refl _)
  | connective => exact Expr.calls_connectedParts
  | not => exact List.flatMap_singleton .. ▸ List.Sublist.refl _
  | _ => exact List.nil_sublist _

mutual

theorem Statement.calls_asked (path : Path) (t : Statement) (st : Store σ) :
    ((t.asked s path st).flatMap fun question => question.part.calls).Sublist
      (t.calls path) := by
  cases t with
  | goto => exact List.nil_sublist _
  | branch condition yes otherwise =>
    rw [Statement.asked, List.flatMap_cons, flatMap_next]
    refine (List.Sublist.refl _).append (next_sublist fun b st' => ?_)
    cases b with
    | true => exact (Statement.calls_asked _ yes st').trans (List.sublist_append_left _ _)
    | false => exact (Alternative.calls_asked _ otherwise st').trans (List.sublist_append_right _ _)

theorem Alternative.calls_asked (path : Path) (t : Alternative) (st : Store σ) :
    ((t.asked s path st).flatMap fun question => question.part.calls).Sublist
      (t.calls path) := by
  cases t with
  | elseIf condition yes otherwise =>
    rw [Alternative.asked, List.flatMap_cons, flatMap_next]
    refine (List.Sublist.refl _).append (next_sublist fun b st' => ?_)
    cases b with
    | true => exact (Statement.calls_asked _ yes st').trans (List.sublist_append_left _ _)
    | false => exact (Alternative.calls_asked _ otherwise st').trans (List.sublist_append_right _ _)
  | last statement => exact Statement.calls_asked path statement st

end

/-- **One part after another does what the logs of the parts tell**, if the parts stand among call
sites that are apart. -/
theorem Leads.logged {st st' : Store σ} {parts : List (Part σ)} (h : Leads s st parts st')
    {calls : List CallSite} (hn : (calls.map CallSite.path).Nodup)
    (hcalls : (parts.flatMap Part.calls).Sublist calls)
    (hparts : ∀ part ∈ parts, ∀ {x st₁}, part.value s = some (x, st₁) →
      Logged environment (· ∈ part.calls) part.store (part.log environment s) st₁) :
    Logged environment (· ∈ calls) st (parts.flatMap (Part.log environment s)) st' := by
  refine Logged.mono ?_ fun _ hc => hcalls.subset hc
  replace hn := hn.sublist (hcalls.map CallSite.path)
  clear hcalls
  induction h with
  | nil => exact .nil _
  | cons hvalue _ ih =>
    rw [List.forall_mem_cons] at hparts
    rw [List.flatMap_cons] at hn ⊢
    have hrest := hn
    rw [List.map_append, List.nodup_append] at hrest
    exact (hparts.1 hvalue).append_calls (ih hparts.2 hrest.2.1) hn

/-- The bindings of a call site are evaluated and passed on in their order. -/
theorem Binding.passes {path : Path} {callee : Callee} (hc : environment.Accepts callee) {k : Nat}
    {bs : List Binding} (hbs : ∀ b ∈ bs, ∀ {path st st' x},
      b.expr.2.value s path st = some (x, st') → Logged environment (· ∈ b.expr.2.calls path) st
        (b.expr.2.log environment s path st) st') {st st' : Store σ} {arguments : List Argument}
    (h : Binding.values s path (environment.write callee) k bs st = some (arguments, st')) :
    Passes environment (· ∈ Binding.calls path k bs) path callee st
      (Binding.log environment s path callee k bs st) arguments st' := by
  induction bs generalizing k st arguments with
  | nil =>
    obtain ⟨rfl, rfl⟩ := pure_eq_some.1 h
    exact .nil _
  | cons b bs ih =>
    cases b with
    | mk kind j e =>
      rw [List.forall_mem_cons] at hbs
      obtain ⟨x, st₁, st₂, as, he, hwrite, hvalues, rfl⟩ := Binding.values_cons_eq_some h
      rw [Binding.log, Evaluate.next_eq he, Evaluate.next_eq hwrite]
      exact .cons hc (Binding.branch path k (.mk kind j e :: bs)) (hbs.1 he) hwrite
        (ih hbs.2 hvalues)

/-- **An evaluation does what its log tells**, and visits its call sites at most once. -/
theorem Expr.logged (hs : s.symbols = environment.symbols) (path : Path) {d : Domain} (e : Expr d)
    (hf : e.Fits environment.symbols own) {st st' : Store σ} {x : d.Value}
    (h : e.value s path st = some (x, st')) :
    Logged environment (· ∈ e.calls path) st (e.log environment s path st) st' := by
  induction e using Expr.induction generalizing path st st' with
  | step e ih =>
    have ih : ∀ y ∈ e.operands, ∀ {path st st' x}, y.2.value s path st = some (x, st') →
        Logged environment (· ∈ y.2.calls path) st (y.2.log environment s path st) st' :=
      fun y hy => ih y hy _ (hf.operands hy)
    cases e with
    | input t i bindings =>
      obtain ⟨symbol, hi, hb, hfits⟩ := hf
      obtain ⟨symbol', st₀, hlift, h⟩ := bind_eq_some.1 h
      obtain ⟨hi', rfl⟩ := lift_eq_some.1 hlift
      rw [hs] at hi'
      obtain rfl := Option.some_inj.1 (hi.symm.trans hi')
      obtain ⟨arguments, st₁, hvalues, h⟩ := bind_eq_some.1 h
      obtain ⟨changed, st₂, hremember, h⟩ := bind_eq_some.1 h
      obtain ⟨rfl, rfl⟩ := Prod.mk.inj (modifyGet_eq_some.1 hremember)
      have hp := Environment.parameters?_input hi
      have hkeys := Binding.values_keys hvalues
      rw [← Environment.write_of_parameters? hp] at hvalues
      have hpasses := Binding.passes (.inr ⟨_, hp⟩) (fun b hb => ih _ (List.mem_map_of_mem hb))
        hvalues
      have hbinds := hb.boundBy (Binding.allFit_iff.1 hfits) hkeys
      have hlogged := hpasses.call (Binding.branch path 0 bindings) hkeys (.inr ⟨_, hp, hbinds⟩)
      rw [Expr.log, Evaluate.next_eq hvalues, readInput_eq_some hi h]
      exact hlogged
    | output t k =>
      obtain ⟨symbol, st₀, hlift, h⟩ := bind_eq_some.1 h
      obtain ⟨hk, rfl⟩ := lift_eq_some.1 hlift
      obtain ⟨-, rfl⟩ := Prod.mk.inj (modifyGet_eq_some.1 h)
      exact .single rfl (.fetched (hs ▸ hk) _)
    | _ =>
      rw [Expr.log_eq rfl]
      exact (Expr.leads rfl h).logged (Expr.sited path _).nodup Expr.calls_parts
        fun part hp => ih _ (Expr.mem_operands_of_mem_parts hp)

/-- A decision tree does what its log tells. -/
theorem Statement.logged (hs : s.symbols = environment.symbols) (path : Path) {states : Nat}
    (t : Statement) (hf : t.Fits environment.symbols own states) {st st' : Store σ} {k : Nat}
    (h : t.select s path st = some (k, st')) :
    Logged environment (· ∈ t.calls path) st (t.log environment s path st) st' := by
  rw [Statement.log_eq]
  refine (Statement.leads h).logged (Statement.sited path t).nodup ?_ fun part hp =>
    Expr.logged hs _ _ (hf.exprs (Statement.mem_exprs_of_mem_parts hp))
  rw [Statement.parts, List.flatMap_map]
  exact Statement.calls_asked path t st

end Evaluation

/-! ### Actions -/

section Actions

variable {p : Program σ} {s : Surroundings σ} {site : Path} {st st₁ : Store σ}
  {arguments : List Argument} {own : Domain → Nat}

/-- The arguments of an activation are those of its bindings, and are remembered. -/
theorem Run.argumentsAt_eq_some {bindings : List Binding} {st' : Store σ}
    (h : Run.argumentsAt s site bindings st = some (arguments, st')) :
    ∃ st₁, Binding.values s site (fun _ => pure ()) 0 bindings st = some (arguments, st₁) ∧
      st' = ⟨st₁.world, st₁.memory.remember site arguments⟩ := by
  obtain ⟨arguments', st₁, hvalues, h⟩ := bind_eq_some.1 h
  obtain ⟨_, st₂, hremember, h⟩ := bind_eq_some.1 h
  obtain ⟨rfl, rfl⟩ := pure_eq_some.1 h
  exact ⟨st₁, hvalues, (Prod.mk.inj (modifyGet_eq_some.1 hremember)).2.symm⟩

/-- An activation visits its own call site. -/
theorem Action.activate_logged (hs : s.symbols = p.environment.symbols) {o : Nat}
    {bindings : List Binding} (hf : (Action.activate o bindings).Fits p own) {st' : Store σ}
    (h : Run.argumentsAt s site bindings st = some (arguments, st')) :
    Logged p.environment (· ∈ (Action.activate o bindings).calls site) st
      ((Action.activate o bindings).log p.environment s site st) st' := by
  obtain ⟨node, -, hfits⟩ := hf
  obtain ⟨st₁, hvalues, rfl⟩ := Run.argumentsAt_eq_some h
  have hvalues : Binding.values s site (p.environment.write (.option o)) 0 bindings st =
    some (arguments, st₁) := hvalues
  have hkeys := Binding.values_keys hvalues
  have hpasses := Binding.passes (.inl ⟨o, rfl⟩)
    (fun b hb => Expr.logged hs _ _ (hfits b hb).expr) hvalues
  have hlogged := hpasses.call (Binding.branch site 0 bindings) hkeys (.inl ⟨o, rfl⟩)
  rw [Action.log, Binding.callLog, Evaluate.next_eq hvalues]
  exact hlogged

/-- The run of a basic behavior visits its call site. -/
theorem Action.behave_logged (hs : s.symbols = p.environment.symbols) {b : Nat}
    {bindings : List Binding} {behavior : BasicBehavior σ}
    (hb : p.environment.behaviors.at? b = some behavior)
    (hf : (Action.behave b bindings).Fits p own) (hc : (Action.behave b bindings).Complete p)
    (h : Binding.values s site (writeSlot behavior.parameters) 0 bindings st =
      some (arguments, st₁)) :
    Logged p.environment (· ∈ (Action.behave b bindings).calls site) st
      ((Action.behave b bindings).log p.environment s site st)
      ⟨behavior.call (st₁.memory.isChange site arguments) st₁.world,
        st₁.memory.remember site arguments⟩ := by
  obtain ⟨behavior', hb', hfits⟩ := hf
  obtain rfl := Option.some_inj.1 (hb.symm.trans hb')
  obtain ⟨behavior', hb', honce⟩ := hc
  obtain rfl := Option.some_inj.1 (hb.symm.trans hb')
  have hp := Environment.parameters?_behavior hb
  have hkeys := Binding.values_keys h
  rw [← Environment.write_of_parameters? hp] at h
  have hpasses := Binding.passes (.inr ⟨_, hp⟩)
    (fun b hb => Expr.logged hs _ _ (hfits b hb).expr) h
  have hlogged := hpasses.call (Binding.branch site 0 bindings) hkeys
    (.inr ⟨_, hp, honce.boundBy hfits hkeys⟩)
  have hcall : ∀ changed w, behavior.call changed w = p.environment.use (.behavior b)
      (if changed then p.environment.notify (.behavior b) w else w) := by
    simp [BasicBehavior.call, Environment.use, Environment.notify, hb]
  rw [Action.log, Binding.callLog, Evaluate.next_eq h, hcall]
  exact hlogged

/-- The run of a basic behavior is the only one in its log. -/
theorem Action.behave_ran? (hs : s.symbols = p.environment.symbols) {b : Nat}
    {bindings : List Binding} {behavior : BasicBehavior σ}
    (hb : p.environment.behaviors.at? b = some behavior)
    (hf : (Action.behave b bindings).Fits p own)
    (h : Binding.values s site (writeSlot behavior.parameters) 0 bindings st =
      some (arguments, st₁)) :
    ((Action.behave b bindings).log p.environment s site st).filterMap HostEvent.ran? = [b] := by
  obtain ⟨behavior', hb', hfits⟩ := hf
  obtain rfl := Option.some_inj.1 (hb.symm.trans hb')
  have hp := Environment.parameters?_behavior hb
  rw [← Environment.write_of_parameters? hp] at h
  have hpasses := Binding.passes (.inr ⟨_, hp⟩)
    (fun b hb => Expr.logged hs _ _ (hfits b hb).expr) h
  have hnone := hpasses.ran?_eq_nil fun _ hc =>
    Callee.ne_behavior (Binding.callee_of_mem_calls hc)
  rw [Action.log, Binding.callLog, Evaluate.next_eq h, List.filterMap_append, hnone,
    List.nil_append]
  unfold HostEvent.call
  split <;> rfl

/-- An assignment stores a value after its expression is evaluated. -/
theorem Action.assign_logged (hs : s.symbols = p.environment.symbols) {d : Domain} {k : Nat}
    {value : Expr d} {symbol : OutputSymbol σ d}
    (hk : (p.environment.symbols.outputs.get d).at? k = some symbol)
    (hf : (Action.assign k value).Fits p own) {x : d.Value}
    (h : value.value s site st = some (x, st₁)) :
    Logged p.environment (· ∈ (Action.assign k value).calls site) st
      ((Action.assign k value).log p.environment s site st)
      ⟨symbol.binding.write x st₁.world, st₁.memory⟩ := by
  rw [Action.log, Evaluate.next_eq h]
  have hvalue := Expr.logged hs site value hf.2.1 h
  have hstored : Logged p.environment (fun _ => False) st₁ [.stored d k x]
      ⟨symbol.binding.write x st₁.world, st₁.memory⟩ := .single rfl (.stored hk _)
  exact (hvalue.append hstored fun _ _ _ => nofun).mono fun _ hc => hc.resolve_right id

end Actions

end BehaviorEngine
