import VersionControl.Dict
import VersionControl.Store.Basic
import VersionControl.Text

/-!
# The store in memory

Any text but the empty one is a key here, and no call but the obvious ones is refused.
-/

namespace VersionControl

structure MemoryStore where
  objects : Dict String
  deriving DecidableEq

namespace MemoryStore

def empty : MemoryStore := ⟨.empty⟩

def read (store : MemoryStore) (key : String) : Except Error String :=
  match store.objects.get? key with
  | some data => .ok data
  | none => .error (.storage (.keyNotFound key))

/-- Scans from the first key that is not below `start` and stops at the first key that does not start
with it: in byte order the keys that do start with it stand together and first. -/
def keys (store : MemoryStore) (start : String) : List String :=
  (store.objects.keys.dropWhile (· < start)).takeWhile (Text.startsWith start)

def write (key data : String) (store : MemoryStore) : Except Error Unit × MemoryStore :=
  if key = "" then (.error (.storage .emptyKey), store)
  else (.ok (), ⟨store.objects.insert key data⟩)

def remove (key : String) (store : MemoryStore) : Except Error Unit × MemoryStore :=
  if store.objects.contains key then (.ok (), ⟨store.objects.erase key⟩)
  else (.error (.storage (.keyNotFound key)), store)

instance : ObjectStore MemoryStore where
  has store key := store.objects.contains key
  read := read
  keys store start := .ok (store.keys start)
  write := write
  remove := remove
  objectCount store := store.objects.size

end MemoryStore

end VersionControl
