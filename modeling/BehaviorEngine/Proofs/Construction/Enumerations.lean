import BehaviorEngine.Proofs.Construction.Closed

/-!
Enumerations that are not found. Only headers name enumerations; everything else looks them up by
positions, which never fails. So an enumeration that is reported as missing is one that a header
asks for.
-/

namespace BehaviorEngine

variable {σ : Type}

namespace Construct

/-- What is told of the errors of a construction. -/
def StopsWith (E : ConstructionError → Prop) (α : Type) (x : Construct α) : Prop :=
  ∀ c e c', x.runOn c = (.error e, c') → E e

/-- It is no enumeration that is missing. -/
def NotLost (e : ConstructionError) : Prop := ∀ name, e.cause ≠ .unresolved .enumeration name

/-- An enumeration that is missing is not registered, and no node is around the error. -/
def LostInHeader (y : Symbols σ) (e : ConstructionError) : Prop :=
  ∀ name, e.cause = .unresolved .enumeration name → name ∉ y.enumerations.names ∧ e.frames = []

theorem NotLost.lostInHeader {e : ConstructionError} (h : NotLost e) (y : Symbols σ) :
    LostInHeader y e := fun name hname => absurd hname (h name)

namespace StopsWith

variable {E F : ConstructionError → Prop} {α : Type} {x : Construct α}

theorem mono (h : StopsWith E α x) (hE : ∀ e, E e → F e) : StopsWith F α x :=
  fun c e c' hx => hE e (h c e c' hx)

/-- What holds of all errors but that of an enumeration that is not found is kept in sequences. -/
theorem sequential (hE : ∀ e, NotLost e → E e) : Sequential (StopsWith E) where
  pure := nofun
  fail span h := by
    rintro c e c' ⟨⟩
    exact hE _ h
  bind h hf := by
    intro c e c' hx
    rcases Stateful.bind_eq_error_iff.1 hx with hx | ⟨a, c₁, hx, hfa⟩
    · exact h c e c' hx
    · exact hf hx c₁ e c' hfa
  word := by
    intro c e c' h
    refine hE e ?_
    obtain ⟨-, rfl, -⟩ | ⟨_, _, -, -, w, ⟨-, rfl⟩ | ⟨-, rfl⟩⟩ := word_eq_error h <;> exact nofun
  cursor := nofun

/-- A node around an error leaves its cause as it is. -/
theorem closed : Closed (StopsWith NotLost) where
  toSequential := sequential fun _ h => h
  within node span x h := by
    intro c e c' hx
    obtain ⟨e₁, hx₁, rfl⟩ := exists_error_of_within hx
    exact h c e₁ c' hx₁

/-- **Option graphs are constructed without losing an enumeration**, but for those that headers
name. -/
theorem openGraph (limits : Limits) (environment : Environment σ) :
    StopsWith (LostInHeader environment.symbols) Graph (openGraph limits environment) := by
  have hsequential : Sequential (StopsWith (LostInHeader environment.symbols)) :=
    sequential fun _ h => h.lostInHeader _
  refine hsequential.openGraph limits environment (hsequential.header fun name span h => ?_)
    (fun headers hheaders expected hexpected => ?_) fun options agents => ?_
  · rintro c e c' ⟨⟩ _ ⟨⟩
    exact ⟨h, rfl⟩
  · exact (closed.namedBody limits environment hheaders hexpected).mono fun _ h => h.lostInHeader _
  · exact (closed.agent options agents).mono fun _ h => h.lostInHeader _

end StopsWith

/-- What is left is no enumeration. -/
theorem finish_notLost {c c' : Cursor} {e : ConstructionError}
    (h : finish.runOn c = (.error e, c')) : NotLost e := by
  obtain ⟨⟨rest, stop, limit⟩, last, requests⟩ := c
  rcases rest with _ | ⟨w | w, rest⟩ <;> cases h <;> exact nofun

end Construct

/-- **An enumeration that is reported as missing is one that a header names.** It is not registered,
and the error stands in no body. -/
theorem Graph.unresolved_enumeration {limits : Limits} {environment : Environment σ}
    {source name : String} {span : Span} {frames : List Frame}
    (h : Graph.ofSource limits environment source =
      .error ⟨.unresolved .enumeration name, span, frames⟩) :
    name ∉ environment.symbols.enumerations.names ∧ frames = [] := by
  rw [Graph.ofSource, Construct.graph_eq] at h
  obtain ⟨c, hrun⟩ : ∃ c, (do
      let g ← Construct.openGraph limits environment
      Construct.finish
      return g : Construct Graph).runOn (Cursor.ofSource source limits) =
        (.error ⟨.unresolved .enumeration name, span, frames⟩, c) := ⟨_, Prod.ext h rfl⟩
  rcases Stateful.bind_eq_error_iff.1 hrun with hopen | ⟨g, c₁, -, hrest⟩
  · exact Construct.StopsWith.openGraph limits environment _ _ _ hopen name rfl
  · rcases Stateful.bind_eq_error_iff.1 hrest with hfinish | ⟨_, _, -, hpure⟩
    · exact absurd rfl (Construct.finish_notLost hfinish name)
    · cases hpure

/-- A parameter of an enumeration that nobody has registered. -/
example : (Graph.ofSource Limits.standard (Environment.empty : Environment Unit)
    "1 main 1 e color x").map (fun _ => ()) =
      .error ⟨.unresolved .enumeration "color", ⟨11, 16⟩, []⟩ := by decide +kernel

end BehaviorEngine
