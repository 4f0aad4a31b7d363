import BehaviorEngine.Proofs.Requests.Loops
import BehaviorEngine.Proofs.Grammar.Counts
import BehaviorEngine.Proofs.Comparison.Prefixes

/-!
Sources whose counts are not to be trusted. A count is only a promise of what is to come; it is
kept, or construction ends with an error at the latest where the words end.
-/

namespace BehaviorEngine

namespace Graph

variable {σ : Type} {limits : Limits} {environment : Environment σ} {source : String}

/-- There is at most one request more than there are words, and exactly one if a graph is built: it
is the one for the end. -/
theorem requests_le (limits : Limits) (environment : Environment σ) (source : String) :
    requests limits environment source ≤ (Source.words source).length + 1 ∧
      ∀ g, Graph.ofSource limits environment source = .ok g →
        requests limits environment source = (Source.words source).length + 1 := by
  have hfrugal := Construct.Frugal.openGraph limits environment
  unfold requests Graph.ofSource
  rw [Construct.graph_eq]
  have hstart : (Cursor.ofSource source limits).requests +
      (Cursor.ofSource source limits).words.length = (Source.words source).length :=
    Nat.zero_add _
  generalize Cursor.ofSource source limits = start at hstart ⊢
  rcases hopen : (Construct.openGraph limits environment).runOn start with ⟨e | g, c⟩
  · have hstopped := hfrugal.stopped hopen
    rw [Stateful.bind_of_error hopen]
    exact ⟨by dsimp only; omega, nofun⟩
  · have hanswered := hfrugal.answered hopen
    rw [Stateful.bind_of_ok hopen]
    rcases hend : c.reader.finish.1 with e | u
    · rw [Stateful.bind_of_error (by rw [Construct.finish_runOn, hend])]
      exact ⟨by dsimp only; omega, nofun⟩
    · rw [Stateful.bind_of_ok (by rw [Construct.finish_runOn, hend])]
      have hwords : c.words = [] := by
        rw [Cursor.words, Reader.finish_eq_ok_iff.1 hend, List.filterMap_nil]
      rw [hwords, List.length_nil] at hanswered
      have hrequests : c.requests + 1 = (Source.words source).length + 1 := by omega
      exact ⟨hrequests.le, fun _ _ => hrequests⟩

/-- The words of a source that describes a graph are a sentence that denotes it. -/
theorem exists_sentence_of_words {g : Graph}
    (h : Graph.ofSource limits environment source = .ok g) :
    ∃ s : Grammar.Sentence, s.words = (Source.words source).map (·.text) ∧
      s.Denotes environment g := by
  obtain ⟨words, hlexemes, -, s, hs, -, hd⟩ := exists_sentence h
  rw [← Source.words_eq hlexemes] at hs
  exact ⟨s, hs, hd⟩

/-- **No count makes construction run away.** Whatever counts a source declares, construction asks
for at most one word more than the source has, and every round of a loop takes a word away or is the
last one. If a source describes a graph, then only the request for its end takes no word away, every
count in it is the number of the items that are read, and no count is larger than the number of its
words. -/
theorem ofSource_outlasts_counts (limits : Limits) (environment : Environment σ)
    (source : String) :
    requests limits environment source ≤ (Source.words source).length + 1 ∧
    Construct.LoopsExhaust limits environment ∧
    ∀ g, Graph.ofSource limits environment source = .ok g →
      requests limits environment source = (Source.words source).length + 1 ∧
      (∃ s : Grammar.Sentence, s.words = (Source.words source).map (·.text) ∧
        s.Denotes environment g) ∧
      ∀ s : Grammar.Sentence, s.words = (Source.words source).map (·.text) →
        s.Denotes environment g → ∀ p ∈ s.counts,
          readCount? p.1 = some p.2 ∧ p.2 ≤ (Source.words source).length := by
  obtain ⟨hrequests, hcomplete⟩ := requests_le limits environment source
  refine ⟨hrequests, Construct.loopsExhaust limits environment, fun g hg => ⟨hcomplete g hg,
    exists_sentence_of_words hg, fun s hs hd p hp => ⟨hd.exact p hp, ?_⟩⟩⟩
  have hcount := Grammar.le_total hp
  have htotal := s.total_lt
  rw [hs, List.length_map] at htotal
  omega

/-- The largest count of options, and the header of one. -/
def hugeSource : String := "18446744073709551615 a 0"

theorem ofSource_outlasts_counts_huge :
    ((Graph.ofSource Limits.standard (Environment.empty : Environment Unit) hugeSource).map
        (fun _ => ()) = .error ⟨.unexpectedEnd, ⟨24, 24⟩, []⟩ ∧
      requests Limits.standard (Environment.empty : Environment Unit) hugeSource = 4 ∧
      requests Limits.standard (Environment.empty : Environment Unit) hugeSource ≤
        (Source.words hugeSource).length + 1) ∧
    ∃ g, Graph.ofSource Limits.standard (Environment.empty : Environment Unit) idleSource = .ok g ∧
      requests Limits.standard (Environment.empty : Environment Unit) idleSource = 14 ∧
      ∃ s : Grammar.Sentence, s.Denotes (Environment.empty : Environment Unit) g ∧
        ∀ p ∈ s.counts, readCount? p.1 = some p.2 ∧ p.2 ≤ 13 := by
  have hidle : (Source.words idleSource).length = 13 := by decide +kernel
  have hok : (Graph.ofSource Limits.standard (Environment.empty : Environment Unit)
      idleSource).isOk = true := by decide +kernel
  constructor
  · exact ⟨by decide +kernel, by decide +kernel, (ofSource_outlasts_counts Limits.standard
      (Environment.empty : Environment Unit) hugeSource).1⟩
  · cases hg : Graph.ofSource Limits.standard (Environment.empty : Environment Unit) idleSource with
    | error e =>
      rw [hg] at hok
      cases hok
    | ok g =>
      obtain ⟨hrequests, ⟨s, hs, hd⟩, hcounts⟩ :=
        (ofSource_outlasts_counts Limits.standard Environment.empty idleSource).2.2 g hg
      rw [hidle] at hrequests hcounts
      exact ⟨g, rfl, hrequests, s, hd, hcounts s hs hd⟩

end Graph

end BehaviorEngine
