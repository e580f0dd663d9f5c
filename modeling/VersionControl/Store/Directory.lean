import VersionControl.Store.Basic
import VersionControl.Store.FileTree

/-!
# The store on disk

Each object is a file under the root, at the path that its key spells. A write is staged beside its
destination and moved into place; a removal also removes the directories that it leaves empty.
-/

namespace VersionControl

structure DirectoryStore where
  /-- The path of the root, for messages. -/
  rootPath : String
  rootName : String := Key.baseName rootPath
  tree : FileTree
  /-- What others keep outside the root, by paths that climb out of it; the store never looks there. -/
  outside : Dict FileNode := .empty
  /-- The number of staging files opened so far, which tells their names apart. -/
  staged : Nat := 0
  deriving DecidableEq

namespace DirectoryStore

def empty (rootPath : String) : DirectoryStore := { rootPath, tree := {} }

/-- The part of a key that the operating system reads: it takes a NUL for the end of a path. -/
def onDisk (key : String) : String := Text.beforeFirst '\x00' key

def directoriesAbove (key : String) : List String := (Key.ancestors key).map onDisk

def pathOf (store : DirectoryStore) (key : String) : String :=
  if key = "" then store.rootPath else store.rootPath ++ "/" ++ key

def has (store : DirectoryStore) (key : String) : Bool :=
  Key.isStorable key && (store.tree.file? (onDisk key)).isSome

/-- A directory opens like an empty file. -/
def read (store : DirectoryStore) (key : String) : Except Error String :=
  if !Key.isStorable key then .error (.storage (.invalidKey key))
  else match store.tree.lookup (onDisk key) with
    | .found (.file content) => .ok content
    | .found .directory => .ok ""
    | _ => .error (.storage (.keyNotFound key))

/-- Every file but the staging ones, whether its key is storable or not. -/
def keys (store : DirectoryStore) (start : String) : Except Error (List String) :=
  match store.tree.root with
  | .directory => .ok <| store.tree.files.filter fun key =>
      !Key.isStagingName (Key.baseName key) && Text.startsWith start key
  | .file => .error (.storage (.cannotList start .notDirectory))
  | .belowFile | .missing => .ok []

/-- Writes on a disk that takes files of at most `limit` bytes; with `none` there is no limit. A write that
breaks off leaves its staging file behind. -/
def writeWithin (limit : Option Nat) (key data : String) (store : DirectoryStore) :
    Except Error Unit × DirectoryStore :=
  if !Key.isStorable key then (.error (.storage (.invalidKey key)), store)
  else match store.tree.makeDirectories (directoriesAbove key) with
    | none => (.error (.storage (.cannotCreateDirectory (store.pathOf (Key.parent key)))), store)
    | some prepared =>
      let staging := Key.stagingName key store.staged
      let store := { store with tree := prepared, staged := store.staged + 1 }
      let fitting := match limit with
        | some bytes => String.ofList (data.toList.take bytes)
        | none => data
      match prepared.putFile (onDisk staging) fitting with
      | none => (.error (.storage (.cannotOpen (store.pathOf staging))), store)
      | some filled =>
        if limit.any (· < data.utf8ByteSize) then
          (.error (.storage (.cannotWrite key)), { store with tree := filled })
        else match filled.moveFile (onDisk staging) (onDisk key) with
          | some moved => (.ok (), { store with tree := moved })
          | none => (.error (.storage (.cannotMove key)), { store with tree := filled.drop (onDisk staging) })

def write : String → String → DirectoryStore → Except Error Unit × DirectoryStore := writeWithin none

def remove (key : String) (store : DirectoryStore) : Except Error Unit × DirectoryStore :=
  if !Key.isStorable key then (.error (.storage (.invalidKey key)), store)
  else match store.tree.removeNode (onDisk key) with
    | .removed tree =>
      (.ok (), { store with tree := tree.prune (directoriesAbove key).reverse })
    | .missing => (.error (.storage (.keyNotFound key)), store)
    | .refused fault => (.error (.storage (.cannotRemove key fault)), store)

instance : ObjectStore DirectoryStore where
  has := has
  read := read
  keys := keys
  write := write
  remove := remove
  objectCount store := store.tree.files.length

end DirectoryStore

end VersionControl
