import VersionControl.Dict
import VersionControl.Error
import VersionControl.Key

/-!
# File trees

A directory tree as a dictionary from keys to what stands there, under a root that need not be a directory.
The operations are those of an operating system: they follow a path one name at a time and fail as it does.
-/

namespace VersionControl

inductive FileNode
  | directory
  | file (content : String)
  deriving DecidableEq

namespace FileNode

def isFile : FileNode → Bool
  | .file _ => true
  | .directory => false

end FileNode

/-- What the path of the root leads to. -/
inductive RootKind
  | directory
  | file
  | belowFile
  /-- Nothing; a call that makes directories makes the root first. -/
  | missing
  deriving DecidableEq

structure Limits where
  /-- The bytes of one name. -/
  name : Option Nat := some 255
  /-- The bytes of a path below the root. -/
  path : Option Nat := some 4064
  /-- The directories made by one call. -/
  newDirectories : Option Nat := some 1000
  deriving DecidableEq

namespace Limits

/-- No limit of any kind. The directories of one call are limited by the library and not by the disk, but who
makes more of them is told that a file name is too long, as for the other two. -/
def unlimited : Limits := { name := none, path := none, newDirectories := none }

def allow (limit : Option Nat) (amount : Nat) : Bool := limit.all (amount ≤ ·)

end Limits

structure FileTree where
  root : RootKind := .directory
  nodes : Dict FileNode := .empty
  limits : Limits := {}
  deriving DecidableEq

inductive Lookup
  | found (node : FileNode)
  | missing
  | refused (fault : SystemFault)
  deriving DecidableEq

namespace FileTree

def fits (tree : FileTree) (path : String) : Bool :=
  Limits.allow tree.limits.name (Key.baseName path).utf8ByteSize

/-- What one step of a path comes to when the steps before it led to directories. -/
def step (tree : FileTree) (path : String) : Lookup :=
  if Key.isSpecialName (Key.baseName path) then .found .directory
  else if !tree.fits path then .refused .nameTooLong
  else match tree.nodes.get? path with
    | some node => .found node
    | none => .missing

def follow (tree : FileTree) (path : String) : (above : List String) → Lookup
  | [] => tree.step path
  | dir :: rest =>
    match tree.step dir with
    | .found .directory => tree.follow path rest
    | .found (.file _) => .refused .notDirectory
    | stopped => stopped

/-- Follows a path from the root; the empty path leads to the root as a directory. -/
def lookup (tree : FileTree) (path : String) : Lookup :=
  if !Limits.allow tree.limits.path path.utf8ByteSize then .refused .nameTooLong
  else match tree.root with
    | .directory => tree.follow path (Key.ancestors path)
    | .missing => .missing
    | .file | .belowFile => .refused .notDirectory

def isDirectory (tree : FileTree) (path : String) : Bool := tree.lookup path = .found .directory

def file? (tree : FileTree) (path : String) : Option String :=
  match tree.lookup path with
  | .found (.file content) => some content
  | _ => none

def isBelow (dir key : String) : Bool :=
  dir = "" || (dir.utf8ByteSize < key.utf8ByteSize && Text.startsWith (dir ++ "/") key)

theorem isBelow_eq (dir key : String) :
    isBelow dir key = (decide (dir = "") || Text.startsWith (dir ++ "/") key) := by
  unfold isBelow
  cases h : Text.startsWith (dir ++ "/") key with
  | false => simp
  | true =>
    have size := Text.size_le_of_startsWith h
    rw [String.utf8ByteSize_append, show "/".utf8ByteSize = 1 by decide] at size
    have : dir.utf8ByteSize < key.utf8ByteSize := by omega
    simp [this]

def hasChildren (tree : FileTree) (dir : String) : Bool := tree.nodes.keys.any (isBelow dir)

/-- Whether one call may make so many directories, the root with them if it is missing. -/
def mayMake (dirs : List String) (tree : FileTree) : Bool :=
  Limits.allow tree.limits.newDirectories (dirs.length + (if tree.root = .missing then 1 else 0))

/-- Makes directories of which each stands in the one before it, after the root if that is missing too. -/
def addDirectories (dirs : List String) (tree : FileTree) : Option FileTree :=
  let entries := dirs.filter fun dir => !Key.isSpecialName (Key.baseName dir)
  if tree.mayMake dirs && dirs.all tree.fits then
    some { tree with
      root := .directory
      nodes := entries.foldl (fun nodes dir => nodes.insert dir .directory) tree.nodes }
  else none

/-- What is missing of a path of directories: everything from the first that is not there. -/
def missingPart (path : List String) (tree : FileTree) : List String :=
  if tree.root = .directory then path.dropWhile (tree.step · = .found .directory) else path

/-- Makes whichever of `path` is missing: the root, then one directory after the other inwards. Fails when
a file stands above the last of them; a file at the last, or as the root, is left for the next call to trip
over. -/
def makeDirectories (path : List String) (tree : FileTree) : Option FileTree :=
  match path.getLast? with
  | some last => match tree.lookup last with
    | .found _ => some tree
    | .missing => tree.addDirectories (tree.missingPart path)
    | .refused _ => none
  | none => match tree.root with
    | .directory | .file => some tree
    | .missing => tree.addDirectories []
    | .belowFile => none

def putFile (path content : String) (tree : FileTree) : Option FileTree :=
  let put : FileTree := { tree with nodes := tree.nodes.insert path (.file content) }
  match tree.lookup path with
  | .found (.file _) => some put
  | .missing => if tree.isDirectory (Key.parent path) then some put else none
  | _ => none

def drop (path : String) (tree : FileTree) : FileTree := { tree with nodes := tree.nodes.erase path }

def moveFile (source target : String) (tree : FileTree) : Option FileTree :=
  match tree.file? source with
  | none => none
  | some content =>
    if tree.isDirectory target then none
    else some { tree with nodes := (tree.nodes.erase source).insert target (.file content) }

/-- What removing comes to: the changed tree, nothing to remove, or a refusal. -/
inductive Removal
  | removed (tree : FileTree)
  | missing
  | refused (fault : SystemFault)

/-- Removes an empty directory, the root among them, unless its path ends in dots. -/
def removeDirectory (path : String) (tree : FileTree) : Removal :=
  if Key.baseName path = "." then .refused .invalidArgument
  else if Key.baseName path = ".." then .refused .directoryNotEmpty
  else
    let dir := Key.withoutSlash path
    if tree.hasChildren dir then .refused .directoryNotEmpty
    else if dir = "" then .removed { tree with root := .missing }
    else .removed (tree.drop dir)

def removeNode (path : String) (tree : FileTree) : Removal :=
  match tree.lookup path with
  | .found (.file _) => .removed (tree.drop path)
  | .found .directory => tree.removeDirectory path
  | .missing => .missing
  | .refused fault => .refused fault

/-- Removes the given directories in turn and stops at the first that is missing or not empty. -/
def prune (tree : FileTree) : List String → FileTree
  | [] => tree
  | dir :: rest =>
    if tree.nodes.contains dir && !tree.hasChildren dir then prune (tree.drop dir) rest else tree

def files (tree : FileTree) : List String :=
  (tree.nodes.entries.filter (·.2.isFile)).map (·.1)

end FileTree

end VersionControl
