import VersionControl.Store.Directory
import VersionControl.Store.Memory

/-!
# Backends

The two places where a repository can keep its objects, behind one type.
-/

namespace VersionControl

inductive Backend
  | memory (store : MemoryStore)
  | directory (store : DirectoryStore)
  deriving DecidableEq

namespace Backend

def name : Backend → String
  | .memory _ => "memory"
  | .directory _ => "fs"

def size? : Backend → Option Nat
  | .memory store => some store.objects.size
  | .directory _ => none

/-- Drops every object in memory; objects on disk stay. -/
def wipe : Backend → Backend
  | .memory _ => .memory .empty
  | .directory store => .directory store

def onDirectory (f : DirectoryStore → DirectoryStore) : Backend → Backend
  | .memory store => .memory store
  | .directory store => .directory (f store)

/-- Writes on a disk that takes files of at most `limit` bytes; memory takes any. -/
def writeWithin (limit : Option Nat) (key data : String) : Transition Backend Unit
  | .memory store => (ObjectStore.write key data store).map id .memory
  | .directory store => (store.writeWithin limit key data).map id .directory

instance : ObjectStore Backend where
  has
    | .memory store, key => ObjectStore.has store key
    | .directory store, key => ObjectStore.has store key
  read
    | .memory store, key => ObjectStore.read store key
    | .directory store, key => ObjectStore.read store key
  keys
    | .memory store, start => ObjectStore.keys store start
    | .directory store, start => ObjectStore.keys store start
  write key data
    | .memory store => (ObjectStore.write key data store).map id .memory
    | .directory store => (ObjectStore.write key data store).map id .directory
  remove key
    | .memory store => (ObjectStore.remove key store).map id .memory
    | .directory store => (ObjectStore.remove key store).map id .directory
  objectCount
    | .memory store => ObjectStore.objectCount store
    | .directory store => ObjectStore.objectCount store

end Backend

end VersionControl
