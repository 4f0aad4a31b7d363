import BehaviorEngine.Proofs.Comparison.Prefixes
import BehaviorEngine.Proofs.Grammar.Nesting

/-!
Limits only refuse. Within wider limits, a source is read as within narrower ones, up to the first
word that is too long or nested too deep for these; so what the narrower limits accept stays the
same graph, and every other error stays the same error. Within its limits, a graph has no longer
name and no deeper tree.
-/

namespace BehaviorEngine

/-- Whether nothing is left depends on what is left. -/
theorem Reader.finish_congr {r r' : Reader} (h : r.rest = r'.rest) :
    r.finish.1 = r'.finish.1 := by
  unfold finish next
  rw [h]
  rcases r'.rest with _ | ⟨_ | _, _⟩ <;> rfl

/-- The same is left to two cursors, and the second one accepts all words that the first one
accepts. -/
structure Cursor.Tighter (c c' : Cursor) : Prop where
  rest : c'.reader.rest = c.reader.rest
  stop : c'.reader.stop = c.reader.stop
  last : c'.last = c.last
  limit : c.reader.limit ≤ c'.reader.limit

/-- A limit is the cause of an error. -/
def Cause.IsLimit (cause : Cause) : Prop :=
  (∃ length limit, cause = .wordTooLong length limit) ∨ ∃ limit, cause = .nestingTooDeep limit

namespace Comparison

open Construct

/-- A source is compared with itself, within wider limits. The first reading may come upon one of
its limits. -/
def wider : Comparison where
  place := Eq
  cursor := Cursor.Tighter
  excused cause _ := cause.IsLimit

/-- Nesting may be deeper within the wider limits. -/
theorem wider_onLimits {limits limits' : Limits}
    (h : limits.nestingDepth ≤ limits'.nestingDepth) : wider.OnLimits limits limits' :=
  .fewer (fun _ => Or.inr ⟨_, rfl⟩) h

theorem wider_lawful : wider.Lawful where
  word := by
    rintro ⟨⟨_, _, limit⟩, _, _⟩ ⟨⟨rest, stop, limit'⟩, last, _⟩ ⟨rfl, rfl, rfl, hlimit⟩
    rcases rest with _ | ⟨w | w, rest⟩
    · rw [word_of_error (Reader.word_of_nil rfl), word_of_error (Reader.word_of_nil rfl)]
      exact .error ⟨rfl, rfl, .nil⟩
    · by_cases h : w.text.utf8ByteSize ≤ limit
      · rw [word_of_ok (Reader.word_of_le rfl h),
          word_of_ok (Reader.word_of_le rfl (h.trans hlimit))]
        exact .ok ⟨rfl, rfl⟩ ⟨rfl, rfl, rfl, hlimit⟩
      · rw [word_of_error (Reader.word_of_lt rfl (Nat.lt_of_not_le h))]
        exact .excused (.inl ⟨_, _, rfl⟩)
    · rw [word_of_error (Reader.word_of_stray rfl), word_of_error (Reader.word_of_stray rfl)]
      exact .error ⟨rfl, rfl, .nil⟩
  last _ _ h := h.last.symm

end Comparison

namespace Graph

variable {σ : Type} {limits limits' : Limits}

/-- **Within wider limits a source describes the same graph**, or it is at fault for the same reason
unless the narrower limits are the reason. -/
theorem ofSource_wider (environment : Environment σ) (source : String)
    (hword : limits.wordLength ≤ limits'.wordLength)
    (hnesting : limits.nestingDepth ≤ limits'.nestingDepth) :
    Graph.ofSource limits' environment source = Graph.ofSource limits environment source ∨
      ∃ e, Graph.ofSource limits environment source = .error e ∧ e.cause.IsLimit := by
  have hbeside := Comparison.openGraph Comparison.wider_lawful (Comparison.wider_onLimits hnesting)
    environment (Cursor.ofSource source limits) (Cursor.ofSource source limits')
    ⟨rfl, rfl, rfl, hword⟩
  rw [ofSource_eq, ofSource_eq]
  generalize (Construct.openGraph limits environment).runOn (Cursor.ofSource source limits) = r,
    (Construct.openGraph limits' environment).runOn (Cursor.ofSource source limits') = r'
    at hbeside ⊢
  cases hbeside with
  | ok hg hc =>
    subst hg
    left
    simp only [Reader.finish_congr hc.rest]
  | error he => exact .inl (by rw [he.eq rfl])
  | excused he => exact .inr ⟨_, rfl, he⟩

/-- **Limits only refuse.** If a source describes a graph within some limits, it describes the same
graph within wider ones; if it is at fault for another reason than these limits, it is at fault
within wider ones with the same error. No name in the graph is longer, and no expression and no
decision tree is nested deeper than the limits allow. -/
theorem ofSource_within_limits (environment : Environment σ) (source : String)
    (hword : limits.wordLength ≤ limits'.wordLength)
    (hnesting : limits.nestingDepth ≤ limits'.nestingDepth) :
    (∀ g, Graph.ofSource limits environment source = .ok g →
      Graph.ofSource limits' environment source = .ok g ∧
      (∀ name ∈ g.names, name.utf8ByteSize ≤ limits.wordLength) ∧
      g.NestedAtMost limits.nestingDepth) ∧
    ∀ e, Graph.ofSource limits environment source = .error e →
      (∀ length limit, e.cause ≠ .wordTooLong length limit) →
      (∀ limit, e.cause ≠ .nestingTooDeep limit) →
      Graph.ofSource limits' environment source = .error e := by
  have hwider := ofSource_wider environment source hword hnesting
  refine ⟨fun g hg => ⟨?_, ?_⟩, fun e he hlong hdeep => ?_⟩
  · rcases hwider with h | ⟨e, he, -⟩
    · rw [h, hg]
    · cases hg.symm.trans he
  · obtain ⟨words, -, hlength, s, hs, hn, hd⟩ := exists_sentence hg
    refine ⟨fun name hname => ?_, hd.nestedAtMost hn⟩
    have hmem := hd.names_mem hname
    rw [hs] at hmem
    obtain ⟨w, hw, rfl⟩ := List.mem_map.1 hmem
    exact hlength w hw
  · rcases hwider with h | ⟨e', he', hlimit⟩
    · rw [h, he]
    · cases he.symm.trans he'
      rcases hlimit with ⟨length, limit, h⟩ | ⟨limit, h⟩
      · exact absurd h (hlong length limit)
      · exact absurd h (hdeep limit)

/-- Four bytes and one level. -/
def tightLimits : Limits := ⟨4, 1⟩

theorem ofSource_within_limits_idle :
    (∃ g, Graph.ofSource tightLimits (Environment.empty : Environment Unit) idleSource = .ok g ∧
      Graph.ofSource Limits.standard (Environment.empty : Environment Unit) idleSource = .ok g ∧
      (∀ name ∈ g.names, name.utf8ByteSize ≤ 4) ∧ g.NestedAtMost 1) ∧
    Graph.ofSource Limits.standard (Environment.empty : Environment Unit) "1 idle none" =
      .error ⟨.invalidCount "none", ⟨7, 11⟩, []⟩ := by
  have hword : tightLimits.wordLength ≤ Limits.standard.wordLength := by decide
  have hnesting : tightLimits.nestingDepth ≤ Limits.standard.nestingDepth := by decide
  have hok : (Graph.ofSource tightLimits (Environment.empty : Environment Unit)
      idleSource).isOk = true := by decide +kernel
  have herror : Graph.ofSource tightLimits (Environment.empty : Environment Unit) "1 idle none" =
      .error ⟨.invalidCount "none", ⟨7, 11⟩, []⟩ := rfl
  constructor
  · cases hg : Graph.ofSource tightLimits (Environment.empty : Environment Unit) idleSource with
    | error e =>
      rw [hg] at hok
      cases hok
    | ok g =>
      obtain ⟨hsame, hnames, hdepth⟩ :=
        (ofSource_within_limits Environment.empty idleSource hword hnesting).1 g hg
      exact ⟨g, rfl, hsame, hnames, hdepth⟩
  · exact (ofSource_within_limits Environment.empty "1 idle none" hword hnesting).2 _ herror
      nofun nofun

end Graph

end BehaviorEngine
