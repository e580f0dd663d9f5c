import VersionControl.Store.Basic
import VersionControl.Value

/-!
# Commits

Commits stored under their hash, and walks along their parents. How a commit is written down and digested is
a parameter: absence and refusal are settled before it is asked.
-/

namespace VersionControl

structure Commit where
  hash : String
  parents : List String
  message : String
  author : String
  /-- Milliseconds since the epoch. -/
  time : Int
  state : Value
  deriving DecidableEq, Repr

structure CommitFormat where
  encode : Commit → String
  /-- Fails with what is wrong with the text. -/
  decode : String → Except String Commit
  digest : Commit → Except Error String

namespace Commit

variable {σ : Type} [ObjectStore σ]

def key (hash : String) : String := "commits/" ++ hash

def isStored (store : σ) (hash : String) : Bool := hash ≠ "" && ObjectStore.has store (key hash)

/-- The stored commit, if its content digests to the hash it is stored under. -/
def load (format : CommitFormat) (store : σ) (hash : String) : Except Error Commit :=
  if !isStored store hash then throw (.commitNotFound hash)
  else do
    match format.decode (← ObjectStore.read store (key hash)) with
    | .error detail => throw (.corruptObject (key hash) detail)
    | .ok commit =>
      if (← format.digest commit) = hash && commit.hash = hash then return commit
      else throw (.corruptObject (key hash) "hash mismatch")

/-- Stores a commit whose parents are all stored; one that is stored already is left as it is. -/
def save (format : CommitFormat) (commit : Commit) : Transition σ Unit := do
  if ← .see (ObjectStore.has · (key commit.hash)) then pure ()
  else match ← .see fun store => commit.parents.find? (!isStored store ·) with
    | some parent => .refuse (.commitNotFound parent)
    | none => ObjectStore.write (key commit.hash) (format.encode commit)

/-! ## Walks -/

/-- A walk meets no more commits than are stored. -/
def walkBudget (store : σ) : Nat := ObjectStore.objectCount store + 1

def firstParents (format : CommitFormat) (store : σ) : (budget : Nat) → String → Except Error (List Commit)
  | 0, _ => return []
  | budget + 1, hash =>
    if hash = "" then return []
    else do
      let commit ← load format store hash
      return commit :: (← firstParents format store budget (commit.parents.head?.getD ""))

/-- The first-parent history of a commit, the newest first; a limit of zero is no limit. -/
def log (format : CommitFormat) (store : σ) (hash : String) (limit : Nat := 0) :
    Except Error (List Commit) :=
  firstParents format store (if limit = 0 then walkBudget store else limit) hash

def meet (met : List String) : (parents : List String) → List String
  | [] => []
  | parent :: rest =>
    if met.contains parent then meet met rest else parent :: meet (parent :: met) rest

/-- Breadth first over all parents, up to and including the first commit that `stop` accepts. -/
def walk (format : CommitFormat) (store : σ) (stop : Commit → Bool) :
    (budget : Nat) → (queue met : List String) → Except Error (List Commit)
  | 0, _, _ => return []
  | _, [], _ => return []
  | budget + 1, hash :: queue, met => do
    let commit ← load format store hash
    if stop commit then return [commit]
    else
      let fresh := meet met commit.parents
      return commit :: (← walk format store stop budget (queue ++ fresh) (met ++ fresh))

def walkFrom (format : CommitFormat) (store : σ) (stop : Commit → Bool) (start : String) :
    Except Error (List Commit) :=
  walk format store stop (walkBudget store) [start] [start]

def isAncestor (format : CommitFormat) (store : σ) (ancestor descendant : String) :
    Except Error Bool := do
  let isIt (commit : Commit) : Bool := commit.hash = ancestor
  return (← walkFrom format store isIt descendant).any isIt

def mergeBase? (format : CommitFormat) (store : σ) (a b : String) :
    Except Error (Option String) := do
  let shared := (← walkFrom format store (fun _ => false) a).map (·.hash)
  let isShared (commit : Commit) : Bool := shared.contains commit.hash
  return ((← walkFrom format store isShared b).find? isShared).map (·.hash)

end Commit

end VersionControl
