import VersionControl.Store.Basic

/-!
# Stores with injected failures

A store whose chosen calls are refused before they reach the store inside. Asking whether a key is stored is
never refused.
-/

namespace VersionControl

structure FaultyStore (σ : Type) where
  inner : σ
  faults : List (StoreCall × String) := []

namespace FaultyStore

variable {σ : Type} [ObjectStore σ]

def fail (call : StoreCall) (key : String) (store : FaultyStore σ) : FaultyStore σ :=
  { store with faults := (call, key) :: store.faults }

def heal (store : FaultyStore σ) : FaultyStore σ := { store with faults := [] }

def refusal? (store : FaultyStore σ) (call : StoreCall) (key : String) : Option Error :=
  if store.faults.contains (call, key) then some (.storage (.injected call key)) else none

def change (call : StoreCall) (key : String) (t : Transition σ Unit) :
    Transition (FaultyStore σ) Unit := fun store =>
  match store.refusal? call key with
  | some error => (.error error, store)
  | none => Transition.onPart (·.inner) (fun inner store => { store with inner }) t store

instance : ObjectStore (FaultyStore σ) where
  has store key := ObjectStore.has store.inner key
  read store key := match store.refusal? .read key with
    | some error => .error error
    | none => ObjectStore.read store.inner key
  keys store start := match store.refusal? .list start with
    | some error => .error error
    | none => ObjectStore.keys store.inner start
  write key data := change .write key (ObjectStore.write key data)
  remove key := change .remove key (ObjectStore.remove key)
  objectCount store := ObjectStore.objectCount store.inner

end FaultyStore

end VersionControl
