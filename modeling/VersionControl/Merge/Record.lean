import VersionControl.Conflict.Basic
import VersionControl.Store.Basic

/-!
# Merge records

The record of a merge of one branch into another while it lasts: the conflicts met so far, and a status that
sums them up. At most one record is stored. How it is written down is a parameter.
-/

namespace VersionControl

namespace MergeRecord

inductive Status
  | inProgress
  | conflicted
  | resolved
  deriving DecidableEq, Repr

namespace Status

def all : List Status := [.inProgress, .conflicted, .resolved]

def name : Status → String
  | .inProgress => "in_progress"
  | .conflicted => "conflicted"
  | .resolved => "resolved"

def ofName? (text : String) : Option Status := all.find? (·.name = text)

end Status

structure Entry where
  entity : String
  collection : String := ""
  fields : List String := []
  resolved : Bool := false
  label : Option String := none
  ours : Option Value := none
  theirs : Option Value := none
  base : Option Value := none
  deriving DecidableEq, Repr

structure Options where
  source : String := ""
  target : String := ""
  baseCommit : String := ""
  sourceCommit : String := ""
  targetCommit : String := ""
  strategy : String := "manual"
  startedAt : Int
  deriving DecidableEq, Repr

end MergeRecord

structure MergeRecord extends MergeRecord.Options where
  status : MergeRecord.Status := .inProgress
  entries : List MergeRecord.Entry := []
  deriving DecidableEq, Repr

structure MergeRecordFormat where
  encode : MergeRecord → String
  /-- Fails with what is wrong with the text. -/
  decode : String → Except String MergeRecord

namespace MergeRecord

def Entry.ofConflict (conflict : Conflict) : Entry :=
  { entity := conflict.target
    collection := Change.targetNamespace conflict.target
    fields := conflict.field.toList
    resolved := conflict.resolved.getD false
    ours := conflict.ours
    theirs := conflict.theirs
    base := conflict.base }

def ofOptions (options : Options) : MergeRecord := { toOptions := options }

def unresolved (record : MergeRecord) : List Entry := record.entries.filter (!·.resolved)

def allResolved (record : MergeRecord) : Bool := record.entries.all (·.resolved)

/-- The status that the entries call for; without entries it stays as it is. -/
def refresh (record : MergeRecord) : MergeRecord :=
  if record.entries.isEmpty then record
  else { record with status := if record.allResolved then .resolved else .conflicted }

def add (record : MergeRecord) (entry : Entry) : MergeRecord :=
  refresh { record with entries := record.entries ++ [entry] }

/-- Resolves every entry of an entity, whether it was resolved before or not. -/
def resolve (record : MergeRecord) (entity label : String) : MergeRecord :=
  refresh { record with entries := record.entries.map fun entry =>
    if entry.entity = entity then { entry with resolved := true, label := some label } else entry }

/-! ## The stored record -/

variable {σ : Type} [ObjectStore σ]

def key : String := "MERGE_STATE"

def isStored (store : σ) : Bool := ObjectStore.has store key

def load (format : MergeRecordFormat) (store : σ) : Except Error (Option MergeRecord) :=
  if isStored store then do
    match format.decode (← ObjectStore.read store key) with
    | .ok record => return some record
    | .error detail => throw (.corruptObject key detail)
  else return none

def save (format : MergeRecordFormat) (record : MergeRecord) : Transition σ Unit :=
  ObjectStore.write key (format.encode record)

def start (format : MergeRecordFormat) (options : Options) : Transition σ MergeRecord := do
  match ← .look (load format) with
  | some active => .refuse (.mergeInProgress active.source active.target)
  | none =>
    let record := ofOptions options
    save format record
    return record

def clear : Transition σ Unit := do
  if ← .see (isStored ·) then ObjectStore.remove key else pure ()

end MergeRecord

end VersionControl
