import VersionControl.Transition

/-!
# Object stores

A store maps keys to texts. The core needs five calls of it; looking never changes a store, and a failing
change still hands the store back.
-/

namespace VersionControl

class ObjectStore (σ : Type) where
  has : σ → String → Bool
  read : σ → String → Except Error String
  /-- The stored keys that start with the given text, in ascending byte order. -/
  keys : σ → String → Except Error (List String)
  write : String → String → Transition σ Unit
  remove : String → Transition σ Unit
  /-- The number of stored objects, which bounds every walk along stored links. -/
  objectCount : σ → Nat

namespace ObjectStore

variable {σ : Type} [ObjectStore σ]

def dump (store : σ) : Except Error (List (String × Except Error String)) := do
  return (← keys store "").map fun key => (key, read store key)

end ObjectStore

end VersionControl
