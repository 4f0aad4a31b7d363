import BehaviorEngine.Construction.Expr
import BehaviorEngine.Graph.Basic

/-!
Construction of option graphs. All options are declared with their parameters before the first
body, so a body may activate any of them. Bodies and states come in the order of declaration.
-/

namespace BehaviorEngine

namespace Construct

variable {σ : Type}

/-! ### States -/

/-- A decision tree nested at most `depth` levels deep. -/
def statement (scope : Scope σ) : (depth : Nat) → Construct Statement
  | 0 => tooDeep scope.limits
  | depth + 1 => do
    let tag ← word
    match tag.tag? with
    | some 't' =>
      let name ← word
      let (i, _) ← resolve .state scope.states name
      return .goto i
    | some 'i' =>
      let condition ← expression scope depth .boolean none
      let yes ← statement scope depth
      let no ← statement scope depth
      return .branch condition yes no.toAlternative
    | _ => unknownTag .statement tag

/-- The form of an action, which its tag tells. -/
inductive ActionForm where
  | activate
  | behave
  | assign (domain : Domain)

/-- The form that a letter stands for in actions. -/
def ActionForm.ofTag? : Char → Option ActionForm
  | 'o' => some .activate
  | 'a' => some .behave
  | c => (Domain.ofTag? c).map .assign

/-- An action of a state. -/
def action (scope : Scope σ) : Construct Action := do
  let depth := scope.limits.nestingDepth
  let tag ← word
  let name ← word
  match tag.tag?.bind ActionForm.ofTag? with
  | none => unknownTag .action tag
  | some .activate =>
    let (i, header) ← resolve .option scope.options name
    let bound ← within (.action s!"activation of option `{name.text}`") name.span
      (arguments (expression scope depth) header.parameters name.text)
    return .activate i bound
  | some .behave =>
    let (i, behavior) ← resolve .basicBehavior scope.behaviors name
    let bound ← within (.action s!"basic behavior `{name.text}`") name.span
      (arguments (expression scope depth) behavior.parameters name.text)
    return .behave i bound
  | some (.assign d) =>
    let (i, symbol) ← resolve (.outputSymbol d) (scope.symbols.outputs.get d) name
    let value ← within (.action s!"assignment to output symbol `{name.text}`") name.span
      (expression scope depth d (some symbol.typing))
    return .assign i value

/-- Whether a word marks a target state. -/
def targetFlag : Construct Bool := do
  let flag ← word
  match flag.text with
  | "0" => return false
  | "1" => return true
  | found => fail (.invalidTargetFlag found) flag.span

/-- What follows the name of a state. -/
def state (scope : Scope σ) : Construct Graph.State := do
  let isTarget ← targetFlag
  let (n, _) ← count
  let actions ← many n (action scope)
  let decision ← statement scope scope.limits.nestingDepth
  return { isTarget, actions, decision }

/-- The name of the next state and the state, which has to be the expected one. -/
def namedState (scope : Scope σ) (expected : String) : Construct Graph.State := do
  let name ← word
  if name.text ≠ expected then fail (.outOfOrder .state expected name.text) name.span
  within (.state name.text) name.span (state scope)

/-! ### Options -/

/-- One formal parameter in the header of an option. -/
def parameter (symbols : Symbols σ) (ps : Parameters Unit) : Construct (Parameters Unit) := do
  let tag ← word
  match tag.tag?.bind Domain.ofTag? with
  | none => unknownTag .parameterDeclaration tag
  | some d =>
    let typing ← typing d
    let name ← word
    return ps.set d (← append (.optionParameter d) (ps.get d) name ⟨typing, ()⟩)
where
  /-- What the values of the parameter have to agree with. -/
  typing : (d : Domain) → Construct d.Typing
    | .decimal => pure ()
    | .boolean => pure ()
    | .enumerated => do
      let name ← word
      let (id, _) ← resolve .enumeration symbols.enumerations name
      return id

/-- The header of an option, after the given ones. -/
def header (symbols : Symbols σ) (headers : Registry Header) : Construct (Registry Header) := do
  let name ← word
  let (n, _) ← count
  let parameters ← iterate (parameter symbols) n Parameters.none
  append .option headers name ⟨parameters, name.span⟩

/-- The name of a state, after the given ones. -/
def stateName (names : Registry Unit) : Construct (Registry Unit) := do
  let name ← word
  append .state names name ()

/-- What follows the name of an option at its body. -/
def body (limits : Limits) (environment : Environment σ) (options : Registry Header)
    (parameters : Parameters Unit) : Construct Graph.Node := do
  let (n, _) ← count
  let names ← iterate stateName n Registry.empty
  let (initial, _) ← resolve .state names (← word)
  let scope : Scope σ :=
    ⟨limits, environment.symbols, environment.behaviors, options, parameters, names⟩
  let states ← names.names.mapM (namedState scope)
  return ⟨parameters, names.withValues states, initial⟩

/-- The name of the next option and its body, which have to belong to the expected header. -/
def namedBody (limits : Limits) (environment : Environment σ) (options : Registry Header)
    (expected : String × Header) : Construct Graph.Node := do
  let name ← word
  if name.text ≠ expected.1 then
    within (.declaration s!"option `{expected.1}`") expected.2.span
      (fail (.outOfOrder .option expected.1 name.text) name.span)
  within (.option name.text) name.span (body limits environment options expected.2.parameters)

/-- An agent, after the given ones. -/
def agent (options : Registry Header) (agents : Registry Nat) : Construct (Registry Nat) := do
  let name ← word
  let root ← word
  let (i, _) ← within (.agent name.text) name.span (resolve .option options root)
  append .agent agents name i

/-- An option graph. -/
def graph (limits : Limits) (environment : Environment σ) : Construct Graph := do
  let (n, span) ← count
  if n = 0 then fail .emptyGraph span
  let headers ← iterate (header environment.symbols) n Registry.empty
  let nodes ← headers.entries.mapM (namedBody limits environment headers)
  let (m, _) ← count
  let agents ← iterate (agent headers) m Registry.empty
  finish
  return ⟨headers.withValues nodes, agents⟩

end Construct

/-- The option graph that a source describes. -/
def Graph.ofSource {σ : Type} (limits : Limits) (environment : Environment σ) (source : String) :
    Except ConstructionError Graph :=
  ((Construct.graph limits environment).runOn (Cursor.ofSource source limits)).1

/-- How often the reader is asked until the graph is built or construction has stopped. -/
def Graph.requests {σ : Type} (limits : Limits) (environment : Environment σ) (source : String) :
    Nat :=
  ((Construct.graph limits environment).runOn (Cursor.ofSource source limits)).2.requests

end BehaviorEngine
