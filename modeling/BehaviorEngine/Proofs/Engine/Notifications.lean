import BehaviorEngine.Proofs.Engine.Journal

/-!
Notice of changed arguments. Whatever calls an engine has taken, a cycle evaluates a call site at
most once. It then writes all arguments into their slots, gives notice exactly if one of them is not
what it was at the evaluation before, and reads the symbol or runs the behavior after that. Decimals
are what they were if their bits are.
-/

namespace BehaviorEngine

variable {σ : Type}

/-! ### Changes -/

/-- Some argument has no predecessor among those of the last time, or differs from it. -/
def Changed (last arguments : List Argument) : Prop := ∃ a ∈ arguments, a ∉ last

instance (last arguments : List Argument) : Decidable (Changed last arguments) :=
  inferInstanceAs (Decidable (∃ a ∈ arguments, a ∉ last))

/-- Arguments for the same parameters are the same if they are among them. -/
theorem Argument.eq_of_keys {as bs : List Argument} (hk : as.map Argument.key = bs.map Argument.key)
    (hn : (bs.map Argument.key).Nodup) (h : ∀ b ∈ bs, b ∈ as) : as = bs := by
  induction bs generalizing as with
  | nil => exact List.map_eq_nil_iff.1 hk
  | cons b bs ih =>
    obtain ⟨a, as, rfl, -, hks⟩ := List.map_eq_cons_iff.1 hk
    rw [List.map_cons, List.nodup_cons] at hn
    have hb : b = a := by
      refine (List.mem_cons.1 (h b (List.mem_cons_self ..))).resolve_right fun hmem => hn.1 ?_
      rw [← hks]
      exact List.mem_map_of_mem hmem
    subst hb
    refine congrArg (b :: ·) (ih hks hn.2 fun c hc => ?_)
    refine (List.mem_cons.1 (h c (List.mem_cons_of_mem _ hc))).resolve_left ?_
    rintro rfl
    exact hn.1 (List.mem_map_of_mem hc)

/-- **Notice is given exactly of changes**, by call sites which have bound the same parameters the
last time. -/
theorem Callee.gives_eq {callee : Callee} (hcallee : ∀ o, callee ≠ .option o)
    {last : Option (List Argument)} {arguments : List Argument}
    (hk : ∀ as ∈ last, as.map Argument.key = arguments.map Argument.key)
    (hn : (arguments.map Argument.key).Nodup) :
    callee.gives last arguments = decide (Changed (last.getD []) arguments) := by
  have hgives : callee.gives last arguments = (!arguments.isEmpty && last != some arguments) := by
    cases callee with
    | option o => exact absurd rfl (hcallee o)
    | input | behavior => rfl
  rw [hgives]
  cases last with
  | none => cases arguments <;> simp [Changed]
  | some as =>
    by_cases heq : as = arguments
    · subst heq
      simp [Changed]
    · have hchanged : Changed as arguments := by
        by_contra hsame
        refine heq (Argument.eq_of_keys (hk as rfl) hn fun a ha => ?_)
        by_contra hnot
        exact hsame ⟨a, ha, hnot⟩
      obtain ⟨a, ha, -⟩ := id hchanged
      have hne : arguments ≠ [] := List.ne_nil_of_mem ha
      simp [heq, hne, hchanged]

/-- A decimal that is no number is no change against itself. -/
example (i : Nat) (x : Decimal) : ¬ Changed [⟨.decimal, i, x⟩] [⟨.decimal, i, x⟩] := by
  simp [Changed]

/-- A zero of the other sign is a change. -/
example : Changed [⟨.decimal, 0, ⟨0⟩⟩] [⟨.decimal, 0, ⟨0x8000000000000000⟩⟩] := by decide

/-- **What the evaluation of a call site lists** that has bound `last` the last time: it writes its
arguments, gives notice if there is a change, and then uses its target. -/
def HostEvent.evaluation (environment : Environment σ) (site : Path) (callee : Callee)
    (last arguments : List Argument) (w : World σ) : List (HostEvent σ) :=
  arguments.map (.wrote site callee) ++
    HostEvent.call environment site callee (decide (Changed last arguments)) arguments w

/-- A call site of a symbol or behavior is visited by an evaluation. -/
theorem HostEvent.visit_eq {environment : Environment σ} {site : Path} {callee : Callee}
    (hcallee : ∀ o, callee ≠ .option o) {last : Option (List Argument)} {arguments : List Argument}
    (hk : ∀ as ∈ last, as.map Argument.key = arguments.map Argument.key)
    (hn : (arguments.map Argument.key).Nodup) (w : World σ) :
    HostEvent.visit environment site callee last arguments w =
      HostEvent.evaluation environment site callee (last.getD []) arguments w := by
  rw [HostEvent.visit, HostEvent.evaluation, HostEvent.flatMap_pass hcallee,
    Callee.gives_eq hcallee hk hn]

/-! ### Cycles -/

namespace Engine

/-- The arguments of the last evaluation of a call site. -/
def lastArguments (site : Path) (past : List (HostEvent σ)) : Option (List Argument) :=
  (lastUse site past).map Prod.fst

/-- A call site has always bound the same parameters, in the same order. -/
theorem Journal.keys_eq {e : Engine σ} {calls : List (Call σ)} {past : List (HostEvent σ)}
    (h : e.Journal calls past) (hr : e.InRange) (hc : e.Complete) {l : Loaded}
    (hl : (e.after calls).loaded = some l) {call : CallSite} (hcall : l.graph.HasCall call) :
    ∀ as ∈ lastArguments call.path past, as.map Argument.key = call.keys := by
  intro as has
  obtain ⟨⟨_, w⟩, hlast, rfl⟩ := Option.map_eq_some_iff.1 has
  obtain ⟨callee, hused⟩ := exists_used_of_lastUse hlast
  exact congrArg CallSite.keys ((h.hasCall hr hc hl hused).1.eq_of_path hcall rfl)

/-- **Notice of changes is exact.** Whatever calls an engine has taken, the log of the next cycle
tells what happens to the host, and each basic behavior runs at most once in it. A call site of an
input symbol or a basic behavior remembers the arguments of its last evaluation. Either the cycle
does not evaluate it, and it remembers them still; or the cycle evaluates it once, with one argument
for each parameter: it writes them all, gives notice exactly if one of them has no predecessor or
differs from it, and uses its target after that. -/
theorem changes_are_told (limits : Limits) (environment : Environment σ) (world : World σ)
    (calls : List (Call σ)) (l : Loaded)
    (hl : ((Engine.new limits environment world).after calls).loaded = some l) (now : Nat) :
    (∃ past trace e', (Engine.new limits environment world).Journal calls past ∧
      ((Engine.new limits environment world).after calls).Traced now trace e') ∧
    ∀ past trace e', (Engine.new limits environment world).Journal calls past →
      ((Engine.new limits environment world).after calls).Traced now trace e' →
      Happens environment ((Engine.new limits environment world).after calls).world
        (traceLog ⟨environment, l.graph⟩ trace) e'.world ∧
      ((traceLog ⟨environment, l.graph⟩ trace).filterMap HostEvent.ran?).Nodup ∧
      ∃ l', e'.loaded = some l' ∧ l'.graph = l.graph ∧
        ∀ call, l.graph.HasCall call → (∀ o, call.callee ≠ .option o) →
          l.memory.get? call.path = lastArguments call.path past ∧
          (∀ as ∈ lastArguments call.path past, as.map Argument.key = call.keys) ∧
          (((traceLog ⟨environment, l.graph⟩ trace).filter (HostEvent.isAt call.path) = [] ∧
              l'.memory.get? call.path = l.memory.get? call.path) ∨
            ∃ parameters arguments w, environment.parameters? call.callee = some parameters ∧
              parameters.BoundBy arguments ∧ arguments.map Argument.key = call.keys ∧
              (traceLog ⟨environment, l.graph⟩ trace).filter (HostEvent.isAt call.path) =
                HostEvent.evaluation environment call.path call.callee
                  ((lastArguments call.path past).getD []) arguments w ∧
              l'.memory.get? call.path = some arguments) := by
  have hr := InRange.new limits environment world
  have hc := Complete.new limits environment world
  refine ⟨hr.exists_journal_traced hl now, fun past trace e' hpast ht => ?_⟩
  have hnodup := ht.nodup_ran? hl (hr.after calls)
  obtain ⟨l', hl', hg, hlogged⟩ := ht.logged hl (hr.after calls) (hc.after calls)
  rw [after_environment] at hnodup hlogged
  refine ⟨hlogged.happens, hnodup, l', hl', hg, ?_⟩
  rintro ⟨site, callee, keys⟩ hcall hcallee
  have hmemory := hpast.memory_eq hr hc rfl hl site
  have hkeys := hpast.keys_eq hr hc hl hcall
  refine ⟨hmemory, hkeys, ?_⟩
  rcases hlogged.visits site with hskip | ⟨callee', arguments, w, hvisited, hbinds, hlog, hlast⟩
  · exact .inl hskip
  · cases hvisited.eq_of_path hcall rfl
    obtain ⟨parameters, hp, hbound⟩ := hbinds.resolve_left fun ⟨o, ho⟩ => hcallee o ho
    refine .inr ⟨parameters, arguments, w, hp, hbound, rfl, hlog.trans ?_, hlast⟩
    change HostEvent.visit environment site callee (l.memory.get? site) arguments w = _
    rw [hmemory]
    exact HostEvent.visit_eq hcallee hkeys hbound.nodup w

/-! ### A host that takes notes -/

/-- What a host is told of its symbol: that arguments have changed, or that it is read with some
argument. -/
inductive Note where
  | told
  | read (given : Bool)
  deriving DecidableEq

/-- The host takes a note. -/
def note (n : Note) (w : World (List Note)) : World (List Note) := { w with host := w.host ++ [n] }

/-- An input symbol that is what it is given, of which the host takes notes, and a variable. -/
def mirror : Environment (List Note) where
  symbols := {
    enumerations := Registry.empty
    inputs := ⟨Registry.empty,
      ⟨[("mirror", {
        typing := ()
        binding := .getter fun w =>
          (w.read .boolean "given", note (.read (w.read .boolean "given")) w)
        parameters := ⟨Registry.empty, ⟨[("it", ⟨(), "given"⟩)], by decide⟩, Registry.empty⟩
        parametersChanged := some (note .told) })], by decide⟩,
      Registry.empty⟩
    outputs := ⟨Registry.empty, ⟨[("out", ⟨(), .cell "out"⟩)], by decide⟩, Registry.empty⟩ }
  behaviors := Registry.empty
  sound := by decide

/-- A source with two call sites, which give the symbol different arguments. -/
def mirrorSource : String :=
  "1 o 0 o 1 s s s 0 2 b out i mirror 1 b it v true b out i mirror 1 b it v false t s 0"

def mirrorEngine : Engine (List Note) := Engine.new Limits.standard mirror ⟨Cells.empty, []⟩

/-- Each of the two call sites gives notice in the first cycle, and none does later. -/
theorem notes_mirror :
    (mirrorEngine.after [.create mirrorSource, .execute 0]).world.host =
        [.told, .read true, .told, .read false] ∧
      (mirrorEngine.after [.create mirrorSource, .execute 0, .execute 1]).world.host =
        [.told, .read true, .told, .read false, .read true, .read false] := by
  decide +kernel

theorem changes_are_told_mirror : ∃ l past trace e',
    (mirrorEngine.after [.create mirrorSource, .execute 0]).loaded = some l ∧
    mirrorEngine.Journal [.create mirrorSource, .execute 0] past ∧
    (mirrorEngine.after [.create mirrorSource, .execute 0]).Traced 1 trace e' ∧
    Happens mirror (mirrorEngine.after [.create mirrorSource, .execute 0]).world
      (traceLog ⟨mirror, l.graph⟩ trace) e'.world ∧
    ∀ call, l.graph.HasCall call → (∀ o, call.callee ≠ .option o) →
      l.memory.get? call.path = lastArguments call.path past := by
  have hsome : (mirrorEngine.after [.create mirrorSource, .execute 0]).loaded.isSome = true := by
    decide +kernel
  obtain ⟨l, hl⟩ := Option.isSome_iff_exists.1 hsome
  obtain ⟨⟨past, trace, e', hpast, ht⟩, hlaw⟩ := changes_are_told _ _ _ _ l hl 1
  obtain ⟨hhappens, -, l', -, -, hcalls⟩ := hlaw past trace e' hpast ht
  exact ⟨l, past, trace, e', hl, hpast, ht, hhappens,
    fun call hcall hcallee => (hcalls call hcall hcallee).1⟩

end Engine

end BehaviorEngine
