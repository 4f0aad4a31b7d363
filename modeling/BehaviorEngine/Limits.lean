/-!
Limits on intermediate code, which need not be trusted.
-/

namespace BehaviorEngine

/-- The bounds that the engine holds intermediate code to. -/
structure Limits where
  /-- The length of the longest accepted word, in bytes. -/
  wordLength : Nat
  /-- How deep expressions and decision trees may be nested. -/
  nestingDepth : Nat
  deriving DecidableEq, Repr

/-- 100 bytes and 64 levels. -/
def Limits.standard : Limits := ⟨100, 64⟩

instance : Inhabited Limits := ⟨Limits.standard⟩

end BehaviorEngine
