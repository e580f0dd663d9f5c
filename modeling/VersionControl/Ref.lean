import VersionControl.Store.Basic
import VersionControl.Text

/-!
# Refs

Named pointers to commits, and HEAD, which names a branch or a commit. A pointer is read without the blanks
and line ends that trail it; one that is missing or blank is reported by its name, never as an empty hash.
-/

namespace VersionControl

inductive Head
  | symbolic (branch : String)
  | detached (hash : String)
  deriving DecidableEq, Repr

namespace Head

/-- The name of HEAD, which is also the key it is stored under. -/
def name : String := "HEAD"

def branchMark : String := "ref: "

def encode : Head → String
  | .symbolic branch => branchMark ++ branch ++ "\n"
  | .detached hash => hash ++ "\n"

def ofPointer (text : String) : Head :=
  if Text.startsWith branchMark text then .symbolic (Text.dropStart branchMark text)
  else .detached text

end Head

namespace Ref

variable {σ : Type} [ObjectStore σ]

def directory : String := "refs/heads/"

def key (name : String) : String := directory ++ name

def isTrailingBlank (c : Char) : Bool := c = ' ' || c = '\r' || c = '\n'

def trimPointer (text : String) : String := Text.trimEndWhile isTrailingBlank text

/-- The pointer under `key`; `name` is what a refusal calls it. -/
def readPointer (store : σ) (key name : String) : Except Error String :=
  if ObjectStore.has store key then do
    let pointer := trimPointer (← ObjectStore.read store key)
    if pointer = "" then throw (.refNotFound name) else return pointer
  else throw (.refNotFound name)

def head (store : σ) : Except Error Head := do
  return .ofPointer (← readPointer store Head.name Head.name)

/-- The commit that a ref points at, through HEAD's branch if the name is HEAD. -/
def resolve (store : σ) (name : String) : Except Error String :=
  if name = Head.name then do
    match ← head store with
    | .detached hash => return hash
    | .symbolic branch => readPointer store (key branch) branch
  else readPointer store (key name) name

def isStored (store : σ) (name : String) : Bool :=
  if name = Head.name then ObjectStore.has store Head.name else ObjectStore.has store (key name)

def names (store : σ) : Except Error (List String) := do
  return (← ObjectStore.keys store directory).map (Text.dropStart directory)

/-- Points HEAD somewhere; a branch need not exist yet. -/
def setHead (head : Head) : Transition σ Unit := ObjectStore.write Head.name head.encode

/-- Points a ref at a commit, which is not looked for. Updating HEAD detaches it. -/
def update (name hash : String) : Transition σ Unit :=
  if name = Head.name then setHead (.detached hash) else ObjectStore.write (key name) (hash ++ "\n")

def delete (name : String) : Transition σ Unit := do
  if ← .see (ObjectStore.has · (key name)) then ObjectStore.remove (key name)
  else .refuse (.refNotFound name)

end Ref

end VersionControl
