import VersionControl.Branch.Event
import VersionControl.Branch.Name

/-!
# Branches

Creating, checking out, removing and renaming branches. A branch is a ref with a valid name; each operation
publishes its event once everything it stores is stored.
-/

namespace VersionControl

structure Branch where
  name : String
  commit : String
  isCurrent : Bool
  deriving DecidableEq, Repr

/-- A store of refs and the events published so far, the oldest first. -/
structure Repository (σ : Type) where
  store : σ
  published : List BranchEvent := []

namespace Branch

variable {σ : Type} [ObjectStore σ]

/-! ## Looking -/

def isStored (store : σ) (name : String) : Bool := BranchName.isValid name && Ref.isStored store name

/-- The branch that HEAD names; none when HEAD is unset or detached. -/
def current (store : σ) : Except Error (Option String) :=
  if ObjectStore.has store Head.name then do
    match ← Ref.head store with
    | .symbolic branch => return some branch
    | .detached _ => return none
  else return none

def list (store : σ) : Except Error (List Branch) := do
  let names ← Ref.names store
  let active ← current store
  names.mapM fun name => do
    return { name, commit := ← Ref.resolve store name, isCurrent := active = some name }

/-- Where a new branch starts: at what `base` resolves to if it is a ref, at the commit `base` itself
otherwise, and at HEAD when no base is given. -/
def startingPoint (store : σ) : Option String → Except Error String
  | none => Ref.resolve store Head.name
  | some base =>
    if base = Head.name || Ref.isStored store base then Ref.resolve store base else return base

/-! ## Changing -/

abbrev Operation (σ : Type) := Transition (Repository σ)

def look {α : Type} (f : σ → Except Error α) : Operation σ α :=
  .look fun repo => f repo.store

def see {α : Type} (f : σ → α) : Operation σ α := .see fun repo => f repo.store

def change (t : Transition σ Unit) : Operation σ Unit :=
  .onPart (·.store) (fun store repo => { repo with store }) t

def publish (event : BranchEvent) : Operation σ Unit :=
  .update fun repo => { repo with published := repo.published ++ [event] }

def create (name : String) (base : Option String := none) : Operation σ Unit := do
  if !BranchName.isValid name then .refuse .invalidBranchName
  else if ← see (isStored · name) then .refuse .branchAlreadyExists
  else
    let commit ← look (startingPoint · base)
    change (Ref.update name commit)
    publish (.created name commit)

def require (name : String) (createMissing : Bool) : Operation σ Unit := do
  if ← see (isStored · name) then pure ()
  else if createMissing then create name
  else .refuse .branchNotFound

/-- Points HEAD at a branch, which is created first if it is missing and `createMissing` is set. -/
def checkout (name : String) (createMissing : Bool := false) : Operation σ Unit := do
  require name createMissing
  let previous ← look current
  change (Ref.setHead (.symbolic name))
  publish (.checkedOut name previous)

/-- Deletes a branch; the current one only when forced. -/
def remove (name : String) (force : Bool := false) : Operation σ Unit := do
  if !(← see (isStored · name)) then .refuse .branchNotFound
  else
    let active ← look current
    if active = some name && !force then .refuse .cannotDeleteCurrentBranch
    else
      let commit ← look (Ref.resolve · name)
      change (Ref.delete name)
      publish (.deleted name commit force)

def followRename (newName : String) (wasCurrent : Bool) : Operation σ Unit :=
  if wasCurrent then change (Ref.setHead (.symbolic newName)) else pure ()

/-- Moves a branch to a new name, and HEAD with it if it named the branch. -/
def rename (oldName newName : String) : Operation σ Unit := do
  if !BranchName.isValid newName then .refuse .invalidBranchName
  else if !(← see (isStored · oldName)) then .refuse .branchNotFound
  else if ← see (isStored · newName) then .refuse .branchAlreadyExists
  else
    let commit ← look (Ref.resolve · oldName)
    let active ← look current
    change (Ref.update newName commit)
    change (Ref.delete oldName)
    followRename newName (active = some oldName)
    publish (.renamed oldName newName (active = some oldName))

end Branch

end VersionControl
