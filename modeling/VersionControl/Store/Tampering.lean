import VersionControl.Store.Directory

/-!
# Changes behind the store's back

What others do to the disk of a store, below its root or around it. Their paths may hold dots, doubled
slashes and a slash at the end, and may climb out of the root. What they cannot do they leave undone.
-/

namespace VersionControl.DirectoryStore

/-- One step of a path from the place that the names `here` lead to, the innermost first. -/
def enter (store : DirectoryStore) (here : List String) (name : String) : List String :=
  if name = "" || name = "." then here
  else if name = ".." then
    match here with
    | [] => [".."]
    | last :: above => if last = ".." then ".." :: here else above
  else if here = [".."] && name = store.rootName then []
  else name :: here

/-- The places that plain names lead to on the way, in their order. Dots and slashes lead to none that is
not a directory already. -/
def placesFrom (store : DirectoryStore) (here : List String) : List String → List String
  | [] => []
  | name :: rest =>
    let next := store.enter here name
    if Key.isSpecialName name then store.placesFrom next rest
    else "/".intercalate next.reverse :: store.placesFrom next rest

def places (store : DirectoryStore) (path : String) : List String :=
  store.placesFrom [] (Key.segments (onDisk path))

/-- A place outside the root is known by a path that climbs first. -/
def isOutside (place : String) : Bool := (Key.segments place).head? = some ".."

def look (store : DirectoryStore) (place : String) : Lookup :=
  let nodes := if isOutside place then store.outside else store.tree.nodes
  { store.tree with nodes }.step place

def holdsDirectory (store : DirectoryStore) (place : String) : Bool := store.look place = .found .directory

def put (place : String) (node : FileNode) (store : DirectoryStore) : DirectoryStore :=
  if isOutside place then { store with outside := store.outside.insert place node }
  else { store with tree := { store.tree with nodes := store.tree.nodes.insert place node } }

def allowsPath (store : DirectoryStore) (path : String) : Bool :=
  Limits.allow store.tree.limits.path (onDisk path).utf8ByteSize

def isDirectory (path : String) (store : DirectoryStore) : Bool :=
  store.tree.root = .directory && store.allowsPath path && (store.places path).all store.holdsDirectory

/-- Makes those of the directories that are missing, up to the first place that cannot be one. -/
def fill : List String → DirectoryStore → DirectoryStore
  | [], store => store
  | place :: rest, store =>
    match store.look place with
    | .found .directory => fill rest store
    | .missing => fill rest (store.put place .directory)
    | _ => store

def makeDirectory (path : String) (store : DirectoryStore) : DirectoryStore :=
  let places := store.places path
  let missing := if store.tree.root = .missing then places else places.dropWhile store.holdsDirectory
  if (store.tree.root = .directory || store.tree.root = .missing) && store.allowsPath path
      && store.tree.mayMake missing then
    fill missing { store with tree := { store.tree with root := .directory } }
  else store

def plant (path content : String) (store : DirectoryStore) : DirectoryStore :=
  let store := store.makeDirectory (Key.parent path)
  match (store.places path).getLast? with
  | none => store
  | some place =>
    let reachable := store.tree.root = .directory && store.allowsPath path
      && !Key.isSpecialName (Key.baseName (onDisk path))
      && (store.places path).dropLast.all store.holdsDirectory
    match store.look place with
    | .missing | .found (.file _) => if reachable then store.put place (.file content) else store
    | _ => store

end VersionControl.DirectoryStore
