import BehaviorEngine.Expr.Memory
import BehaviorEngine.Host.Environment

/-!
Logs of what the host is asked to do. A call site passes arguments to an input symbol, a basic
behavior or an option; for symbols and behaviors it writes them into the slots of the parameters,
gives notice if they have changed, and then reads the symbol or runs the behavior. A log lists all
this in its order, and takes the host from one world to another.
-/

namespace BehaviorEngine

variable {σ : Type}

/-! ### Targets of call sites -/

/-- What a call site passes arguments to. -/
inductive Callee where
  | input (d : Domain) (symbol : Nat)
  | behavior (behavior : Nat)
  | option (option : Nat)
  deriving DecidableEq

theorem Callee.ne_behavior {callee : Callee} (h : ∃ d i, callee = .input d i) (b : Nat) :
    callee ≠ .behavior b := by
  obtain ⟨d, i, rfl⟩ := h
  exact nofun

namespace Environment

variable (environment : Environment σ)

/-- The formal parameters of a symbol or a behavior. -/
def parameters? : Callee → Option (Parameters String)
  | .input d i => ((environment.symbols.inputs.get d).at? i).map InputSymbol.parameters
  | .behavior b => (environment.behaviors.at? b).map BasicBehavior.parameters
  | .option _ => none

variable {environment} in
theorem parameters?_input {d : Domain} {i : Nat} {symbol : InputSymbol σ d}
    (h : (environment.symbols.inputs.get d).at? i = some symbol) :
    environment.parameters? (.input d i) = some symbol.parameters := by
  rw [parameters?, h, Option.map_some]

variable {environment} in
theorem parameters?_behavior {b : Nat} {behavior : BasicBehavior σ}
    (h : environment.behaviors.at? b = some behavior) :
    environment.parameters? (.behavior b) = some behavior.parameters := by
  rw [parameters?, h, Option.map_some]

/-- The cell that is the slot of a parameter of a symbol or a behavior. -/
def slot? (callee : Callee) (d : Domain) (index : Nat) : Option String := do
  let parameters ← environment.parameters? callee
  let parameter ← (parameters.get d).at? index
  return parameter.slot

/-- Gives notice of changed parameters. -/
def notify : Callee → World σ → World σ
  | .input d i, w =>
    (((environment.symbols.inputs.get d).at? i).bind InputSymbol.parametersChanged).elim w (· w)
  | .behavior b, w =>
    ((environment.behaviors.at? b).map BasicBehavior.parametersChanged).elim w (· w)
  | .option _, w => w

/-- Reads a symbol or runs a behavior. -/
def use : Callee → World σ → World σ
  | .input d i, w =>
    ((environment.symbols.inputs.get d).at? i).elim w fun symbol => (symbol.binding.read w).2
  | .behavior b, w => ((environment.behaviors.at? b).map BasicBehavior.run).elim w (· w)
  | .option _, w => w

end Environment

/-! ### Events -/

/-- What the host is asked to do. -/
inductive HostEvent (σ : Type) where
  /-- A call site writes an argument into the slot of its parameter. -/
  | wrote (site : Path) (callee : Callee) (argument : Argument)
  /-- A call site gives notice that its arguments have changed. -/
  | told (site : Path) (callee : Callee) (world : World σ)
  /-- A call site reads its symbol or runs its behavior in a world; or it activates its option. -/
  | used (site : Path) (callee : Callee) (arguments : List Argument) (world : World σ)
  /-- The value of an output symbol is read. -/
  | fetched (d : Domain) (symbol : Nat)
  | stored (d : Domain) (symbol : Nat) (value : d.Value)

namespace HostEvent

/-- The call site of an event. -/
def site? : HostEvent σ → Option Path
  | wrote site _ _ => some site
  | told site _ _ => some site
  | used site _ _ _ => some site
  | fetched _ _ => none
  | stored _ _ _ => none

/-- The target of the call site of an event. -/
def callee? : HostEvent σ → Option Callee
  | wrote _ callee _ => some callee
  | told _ callee _ => some callee
  | used _ callee _ _ => some callee
  | fetched _ _ => none
  | stored _ _ _ => none

/-- Whether an event is one of a call site. -/
def isAt (site : Path) (event : HostEvent σ) : Bool := event.site? = some site

/-- The basic behavior that an event runs. -/
def ran? : HostEvent σ → Option Nat
  | used _ (.behavior b) _ _ => some b
  | _ => none

/-- How an event uses a call site: with which arguments, and in which world. -/
def usedAt? (site : Path) : HostEvent σ → Option (List Argument × World σ)
  | used path _ arguments w => if path = site then some (arguments, w) else none
  | _ => none

/-- The end of a call in a world: with notice if there is a change, the target is used. -/
def call (environment : Environment σ) (site : Path) (callee : Callee) (changed : Bool)
    (arguments : List Argument) (w : World σ) : List (HostEvent σ) :=
  if changed then
    [.told site callee w, .used site callee arguments (environment.notify callee w)]
  else [.used site callee arguments w]

theorem call_eq {environment : Environment σ} {site : Path} {callee : Callee} {changed : Bool}
    {arguments : List Argument} {w : World σ} :
    HostEvent.call environment site callee changed arguments w =
      (if changed then [.told site callee w] else []) ++
        [.used site callee arguments (if changed then environment.notify callee w else w)] := by
  cases changed <;> rfl

/-- **What an event does to the host.** -/
inductive Takes (environment : Environment σ) : HostEvent σ → World σ → World σ → Prop
  | wrote {site : Path} {callee : Callee} {a : Argument} {slot : String}
      (h : environment.slot? callee a.domain a.index = some slot) (w : World σ) :
      Takes environment (.wrote site callee a) w (w.write a.domain slot a.value)
  | told {site : Path} {callee : Callee} (w : World σ) :
      Takes environment (.told site callee w) w (environment.notify callee w)
  | used {site : Path} {callee : Callee} {arguments : List Argument} (w : World σ) :
      Takes environment (.used site callee arguments w) w (environment.use callee w)
  | fetched {d : Domain} {k : Nat} {symbol : OutputSymbol σ d}
      (h : (environment.symbols.outputs.get d).at? k = some symbol) (w : World σ) :
      Takes environment (.fetched d k) w (symbol.binding.read w).2
  | stored {d : Domain} {k : Nat} {symbol : OutputSymbol σ d} {x : d.Value}
      (h : (environment.symbols.outputs.get d).at? k = some symbol) (w : World σ) :
      Takes environment (.stored d k x) w (symbol.binding.write x w)

end HostEvent

/-- How a call site was used last. -/
def lastUse (site : Path) (log : List (HostEvent σ)) : Option (List Argument × World σ) :=
  (log.filterMap (HostEvent.usedAt? site)).getLast?

section LastUse

variable {site : Path} {xs ys : List (HostEvent σ)}

theorem lastUse_append : lastUse site (xs ++ ys) = (lastUse site ys).or (lastUse site xs) := by
  rw [lastUse, List.filterMap_append, List.getLast?_append]
  rfl

/-- Uses of a call site are among its own events. -/
theorem lastUse_filter : lastUse site (xs.filter (HostEvent.isAt site)) = lastUse site xs := by
  rw [lastUse, List.filterMap_filter, lastUse]
  congr 2
  funext event
  cases event with
  | used path callee arguments w =>
    by_cases h : path = site <;> simp [HostEvent.isAt, HostEvent.site?, HostEvent.usedAt?, h]
  | wrote | told | fetched | stored => exact ite_self none

theorem exists_used_of_lastUse {arguments : List Argument} {w : World σ}
    (h : lastUse site xs = some (arguments, w)) : ∃ callee, .used site callee arguments w ∈ xs := by
  obtain ⟨event, he, hused⟩ := List.mem_filterMap.1 (List.mem_of_getLast? h)
  cases event with
  | used path callee as v =>
    obtain ⟨rfl, hpair⟩ := Option.ite_none_right_eq_some.1 hused
    cases hpair
    exact ⟨callee, he⟩
  | wrote | told | fetched | stored => cases hused

end LastUse

/-- **What a log does to the host**, event by event. -/
inductive Happens (environment : Environment σ) : World σ → List (HostEvent σ) → World σ → Prop
  | nil (w : World σ) : Happens environment w [] w
  | cons {w w₁ w₂ : World σ} {event : HostEvent σ} {events : List (HostEvent σ)}
      (h : event.Takes environment w w₁) (hs : Happens environment w₁ events w₂) :
      Happens environment w (event :: events) w₂

namespace Happens

variable {environment : Environment σ} {w w₁ w₂ : World σ} {xs ys : List (HostEvent σ)}

theorem single {event : HostEvent σ} (h : event.Takes environment w w₁) :
    Happens environment w [event] w₁ := .cons h (.nil w₁)

theorem append (h : Happens environment w xs w₁) (h' : Happens environment w₁ ys w₂) :
    Happens environment w (xs ++ ys) w₂ := by
  induction h with
  | nil => exact h'
  | cons h _ ih => exact .cons h (ih h')

theorem split (h : Happens environment w (xs ++ ys) w₂) :
    ∃ w₁, Happens environment w xs w₁ ∧ Happens environment w₁ ys w₂ := by
  induction xs generalizing w with
  | nil => exact ⟨w, .nil w, h⟩
  | cons x xs ih =>
    cases h with
    | cons h hs =>
      obtain ⟨w₁, hxs, hys⟩ := ih hs
      exact ⟨w₁, .cons h hxs, hys⟩

/-- The end of a call gives notice if there is a change, and uses its target. -/
theorem call {site : Path} {callee : Callee} {changed : Bool} {arguments : List Argument}
    (w : World σ) :
    Happens environment w (HostEvent.call environment site callee changed arguments w)
      (environment.use callee (if changed then environment.notify callee w else w)) := by
  cases changed with
  | true => exact .cons (.told w) (.single (.used _))
  | false => exact .single (.used w)

end Happens

end BehaviorEngine
