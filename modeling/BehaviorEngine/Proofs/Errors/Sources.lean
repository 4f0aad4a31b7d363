import BehaviorEngine.Proofs.Errors.Constructions
import BehaviorEngine.Proofs.Engine.Snapshots

/-!
Errors of a whole source. A source that describes no graph is at fault at one place: at its end if
it just ends too early, and at one of its words or at a stray slash otherwise. The nodes around the
error are named by words before that place, from the inside out.
-/

namespace BehaviorEngine

variable {source : String} {k j : Nat} {σ : Type}

namespace Construct

/-! ### Headers and bodies -/

/-- Headers are declared at words of a source that have been read. -/
def Declared (source : String) (j : Nat) (headers : Registry Header) : Prop :=
  ∀ h ∈ headers.values, (∃ w, Source.HasWord source w ∧ h.span = w.span) ∧ h.span.start ≤ j

theorem Declared.mono {headers : Registry Header} (h : Declared source j headers) {i : Nat}
    (hj : j ≤ i) : Declared source i headers :=
  fun header hheader => ⟨(h header hheader).1, (h header hheader).2.trans hj⟩

/-- A further header is declared at its name. -/
theorem header_meets (symbols : Symbols σ) {headers : Registry Header}
    (h : Declared source j headers) :
    Meets source j (Declared source) (·.Since source j) (header symbols headers) := by
  refine .next le_rfl fun name hname hlt => .count_bind hname.behind.le fun n span hspan hlt' => ?_
  have hparameter : ∀ ps, Meets source span.span.start (fun _ _ => True) (·.Since source j)
      (parameter symbols ps) := fun ps => (parameter_blames symbols ps).meets hspan.behind.le
  refine (Meets.iterate_seq hparameter n Parameters.none).seq fun parameters => ?_
  refine (Meets.append (hname.mono hlt'.le)).results fun i s hi hs => ?_
  intro x hx
  have hvalues : s.values = headers.values ++ [⟨parameters, name.span⟩] := by
    rw [Registry.values, hs, List.map_append]
    rfl
  rw [hvalues, List.mem_append, List.mem_singleton] at hx
  rcases hx with hx | rfl
  · exact h.mono ((hlt.trans hlt').le.trans hi) x hx
  · exact ⟨⟨name, hname.word, rfl⟩, hlt'.le.trans hi⟩

/-- A body that does not come in order is blamed for its name, and its header is shown. -/
theorem pointsInto_declaration {header : Header} {name w : Word} {what expected : String}
    (hname : Source.HasWord source name) (hw : Source.HasWord source w)
    (hheader : header.span = w.span) (hle : header.span.start ≤ name.span.start) :
    ((⟨.outOfOrder .option expected name.text, name.span, []⟩ : ConstructionError).within
      ⟨.declaration what, header.span⟩).PointsInto source where
  place := .word hname nofun nofun ⟨fun _ h => (Option.some_inj.1 h).symm, nofun⟩
  words := by
    intro f hf
    obtain rfl := List.mem_singleton.1 hf
    exact ⟨w, hw, hheader⟩
  before := by
    intro f hf
    obtain rfl := List.mem_singleton.1 hf
    exact hle
  falling := List.pairwise_singleton _ _
  declaration := by
    intro f hf _
    obtain rfl := List.mem_singleton.1 hf
    rfl

theorem namedBody_meets (limits : Limits) (environment : Environment σ) {options : Registry Header}
    (h : Declared source j options) {expected : String × Header}
    (hexpected : expected ∈ options.entries) :
    Meets source j (fun _ _ => True) (·.PointsInto source)
      (namedBody limits environment options expected) := by
  obtain ⟨⟨w, hw, hspan⟩, hle⟩ := h expected.2 (List.mem_map_of_mem hexpected)
  refine .word_bind (fun _ he => he.toPointsInto) fun name hname hlt => .check (fun _ => ?_) ?_
  · refine Meets.within (F := (· = ⟨.outOfOrder .option expected.1 name.text, name.span, []⟩))
      (.fail rfl) ?_
    rintro e rfl
    exact pointsInto_declaration hname hw hspan (hle.trans hlt.le)
  · have hbody : Blames source (body limits environment options expected.2.parameters) :=
      body_blames limits environment options expected.2.parameters
    have hword : name.ReadBetween source j name.span.start := ⟨hname, hlt, le_rfl⟩
    exact (Meets.around hword rfl (hbody _)).errors fun _ he => he.toPointsInto

theorem agent_blames (options : Registry Header) (agents : Registry Nat) :
    Blames source (agent options agents) := by
  intro k
  refine .next le_rfl fun name hname _ => .next hname.behind.le fun root hroot hlt => ?_
  have hname' : name.ReadBetween source k root.span.start := hname.mono hlt.le
  have hroot' : root.ReadBetween source name.span.start root.span.start := ⟨hroot.word, hlt, le_rfl⟩
  refine (Meets.around hname' rfl (Meets.resolve hroot')).seq fun ⟨i, _⟩ => ?_
  exact (Meets.append hname').results fun _ _ _ _ => trivial

/-- A word that is left is blamed. -/
theorem finish_meets : Meets source j (fun _ _ => True) (·.PointsInto source) finish := by
  intro c hc
  obtain ⟨⟨rest, stop, limit⟩, last, requests⟩ := c
  cases rest with
  | nil => exact .ok trivial { hc with reached := le_rfl }
  | cons x rest =>
    have hmem : x ∈ Source.lexemes source := hc.rest.subset List.mem_cons_self
    have hzero := Nat.zero_le x.span.start
    cases x with
    | stray w => exact .error (ConstructionError.Since.of_place (.stray hmem) hzero).toPointsInto
    | word w =>
      have hplace : Cause.StandsAt source (.trailingInput w.text) w.span :=
        .word hmem nofun nofun ⟨fun _ h => (Option.some_inj.1 h).symm, nofun⟩
      exact .error (ConstructionError.Since.of_place hplace hzero).toPointsInto

/-- What follows the first count of a source. -/
def declared (limits : Limits) (environment : Environment σ) (count : Nat × Span) :
    Construct Graph := do
  if count.1 = 0 then fail .emptyGraph count.2
  let headers ← iterate (header environment.symbols) count.1 Registry.empty
  let nodes ← headers.entries.mapM (namedBody limits environment headers)
  let (m, _) ← Construct.count
  let agents ← iterate (agent headers) m Registry.empty
  finish
  return ⟨headers.withValues nodes, agents⟩

theorem graph_eq_count_bind (limits : Limits) (environment : Environment σ) :
    graph limits environment = count >>= declared limits environment := rfl

theorem declared_meets (limits : Limits) (environment : Environment σ) {w : Word}
    (hw : Source.HasWord source w) (n : Nat) :
    Meets source w.span.start (fun _ _ => True) (·.PointsInto source)
      (declared limits environment (n, w.span)) := by
  unfold declared
  refine .check (fun _ => ?_) ?_
  · have hplace : Cause.StandsAt source .emptyGraph w.span := .word hw nofun nofun ⟨nofun, nofun⟩
    exact .fail (ConstructionError.Since.of_place hplace (Nat.zero_le _)).toPointsInto
  have hheaders : Meets source w.span.start (Declared source) (·.PointsInto source)
      (iterate (header environment.symbols) n Registry.empty) :=
    .iterate (fun _ _ _ hj h => h.mono hj)
      (fun _ _ _ h => (header_meets _ h).errors fun _ he => he.toPointsInto) n nofun
  refine hheaders.bind fun i headers _ hdeclared => ?_
  have hbodies : ∀ expected ∈ headers.entries, Meets source i (fun _ _ => True)
      (·.PointsInto source) (namedBody limits environment headers expected) :=
    fun _ hexpected => namedBody_meets limits environment hdeclared hexpected
  have hcount : Meets source i (fun _ _ => True) (·.PointsInto source) count :=
    (count_blames i).errors fun _ he => he.toPointsInto
  have hagents : ∀ agents, Meets source i (fun _ _ => True) (·.PointsInto source)
      (agent headers agents) := fun agents =>
    (agent_blames headers agents i).errors fun _ he => he.toPointsInto
  exact (Meets.mapM hbodies).seq fun nodes => hcount.seq fun ⟨m, _⟩ =>
    (Meets.iterate_seq hagents m _).seq fun agents => finish_meets.seq_pure

/-- The first count is read before there is a word that could be blamed for anything else. -/
theorem first_count_cases (source : String) (limits : Limits) :
    (∃ n w c, count.runOn (Cursor.ofSource source limits) = (.ok (n, w.span), c) ∧
      Source.HasWord source w ∧ c.Inside source w.span.start) ∨
    ∃ e c, count.runOn (Cursor.ofSource source limits) = (.error e, c) ∧ e.PointsInto source := by
  unfold count
  rcases word_cases (c := Cursor.ofSource source limits) rfl (List.suffix_refl _) with
    ⟨w, c, hword, hw, hc, -, -⟩ | ⟨⟨cause, span, frames⟩, c, hword, hplace, rfl, -⟩
  · rw [Stateful.bind_of_ok hword]
    unfold Reader.countOf
    cases hn : readCount? w.text with
    | some n => exact .inl ⟨n, w, c, rfl, hw, hc⟩
    | none =>
      have hplace : Cause.StandsAt source (.invalidCount w.text) w.span :=
        .word hw nofun nofun ⟨fun _ h => (Option.some_inj.1 h).symm, nofun⟩
      exact .inr ⟨_, c, rfl,
        (ConstructionError.Since.of_place hplace (Nat.zero_le _)).toPointsInto⟩
  · rw [Stateful.bind_of_error hword]
    exact .inr ⟨_, c, rfl, (ConstructionError.Since.of_place hplace (Nat.zero_le _)).toPointsInto⟩

end Construct

namespace Graph

variable {limits : Limits} {environment : Environment σ} {e : ConstructionError}

/-- The error of a source points into it. -/
theorem pointsInto_of_ofSource (h : Graph.ofSource limits environment source = .error e) :
    e.PointsInto source := by
  rw [Graph.ofSource, Construct.graph_eq_count_bind] at h
  rcases Construct.first_count_cases source limits with ⟨n, w, c, hcount, hw, hc⟩ |
    ⟨e', c, hcount, he'⟩
  · rw [Stateful.bind_of_ok hcount] at h
    have hmeets := Construct.declared_meets limits environment hw n c hc
    generalize (Construct.declared limits environment (n, w.span)).runOn c = r at h hmeets
    cases hmeets with
    | ok => cases h
    | error he =>
      cases h
      exact he
  · rw [Stateful.bind_of_error hcount] at h
    cases h
    exact he'

/-- **An error points at the word that is at fault.** If a source describes no graph, then either it
ends too early, which is shown at its end, or the error has the range of exactly one word, a stray
slash apart. What the message repeats is what the source has there, and a word that is too long has
the length that is told. The nodes around the error are named by words, outer ones before inner ones
and none behind the error; a declaration is shown by itself only. All ranges lie in the source, from
one character to another. -/
theorem ofSource_error_points (limits : Limits) (environment : Environment σ) (source : String)
    (e : ConstructionError) (h : Graph.ofSource limits environment source = .error e) :
    (e.cause = .unexpectedEnd → e.span = ⟨source.utf8ByteSize, source.utf8ByteSize⟩) ∧
    (e.cause ≠ .unexpectedEnd → (∀ text, e.cause ≠ .unrecognizedInput text) →
      ∃ w, Source.HasWord source w ∧ Source.HasAt source w.span w.text ∧ e.span = w.span) ∧
    (∃ text, Source.HasAt source e.span text ∧ (∀ quoted ∈ e.cause.quoted?, quoted = text) ∧
      ∀ length limit, e.cause = .wordTooLong length limit → length = text.utf8ByteSize) ∧
    (∀ f ∈ e.frames, ∃ w, Source.HasWord source w ∧ Source.HasAt source w.span w.text ∧
      f.span = w.span) ∧
    (e.frames.Pairwise fun f g => g.span.start < f.span.start) ∧
    (∀ f ∈ e.frames, f.span.start ≤ e.span.start) ∧
    ∀ f ∈ e.frames, f.node.isDeclaration = true → e.frames = [f] := by
  obtain ⟨hplace, hwords, hbefore, hfalling, hdeclaration⟩ := pointsInto_of_ofSource h
  refine ⟨fun hend => ?_, fun hend hstray => ?_, hplace.hasAt, fun f hf => ?_, hfalling, hbefore,
    hdeclaration⟩
  · rw [hend] at hplace
    exact hplace.span_eq_stop
  · obtain ⟨w, hw, hspan⟩ := hplace.exists_word hend hstray
    exact ⟨w, hw, Source.hasAt_of_mem hw, hspan⟩
  · obtain ⟨w, hw, hspan⟩ := hwords f hf
    exact ⟨w, hw, Source.hasAt_of_mem hw, hspan⟩

/-- Graphs cannot be compared, but the error of a source can be computed. -/
theorem ofSource_eq_error
    (h : (Graph.ofSource limits environment source).map (fun _ => ()) = .error e) :
    Graph.ofSource limits environment source = .error e := by
  cases hg : Graph.ofSource limits environment source with
  | ok g =>
    rw [hg] at h
    cases h
  | error e' =>
    rw [hg] at h
    rw [Except.error.inj h]

/-- A source whose only state assigns, in an operand of a sum, an output symbol that nobody has
registered. -/
def faultySource : String := "1 main 0 // über\nmain 1 s s s 0 1 b lit > v 1 + v 2 o volume t s 0"

theorem ofSource_error_points_faulty :
    let e : ConstructionError := ⟨.unresolved (.outputSymbol .decimal) "volume", ⟨55, 61⟩,
      [⟨.operand "+", ⟨47, 48⟩⟩, ⟨.operand ">", ⟨41, 42⟩⟩,
        ⟨.action "assignment to output symbol `lit`", ⟨37, 40⟩⟩, ⟨.state "s", ⟨29, 30⟩⟩,
        ⟨.option "main", ⟨18, 22⟩⟩]⟩
    Graph.ofSource Limits.standard Engine.lamp faultySource = .error e ∧
    Source.HasAt faultySource e.span "volume" ∧
    ∀ f ∈ e.frames, ∃ w, Source.HasWord faultySource w ∧ f.span = w.span := by
  intro e
  have herror : Graph.ofSource Limits.standard Engine.lamp faultySource = .error e :=
    ofSource_eq_error (by decide +kernel)
  obtain ⟨-, -, ⟨text, htext, hquoted, -⟩, hframes, -⟩ := ofSource_error_points _ _ _ _ herror
  obtain rfl : "volume" = text := hquoted "volume" rfl
  refine ⟨herror, htext, fun f hf => ?_⟩
  obtain ⟨w, hw, -, hspan⟩ := hframes f hf
  exact ⟨w, hw, hspan⟩

end Graph

end BehaviorEngine
