import VersionControl.Merge.Record

/-!
# Record commands

The calls that change a merge record, as data, and what a run of them makes of a record and of its entries.
-/

namespace VersionControl

inductive RecordCommand
  | add (entry : MergeRecord.Entry)
  | resolve (entity label : String)
  deriving DecidableEq, Repr

namespace RecordCommand

open MergeRecord (Entry)

def perform : RecordCommand → MergeRecord → MergeRecord
  | add entry, record => record.add entry
  | resolve entity label, record => record.resolve entity label

def run (commands : List RecordCommand) (record : MergeRecord) : MergeRecord :=
  commands.foldl (fun record command => command.perform record) record

@[simp] theorem run_cons (command : RecordCommand) (commands : List RecordCommand) (record : MergeRecord) :
    run (command :: commands) record = run commands (command.perform record) := rfl

/-- Takes down each conflict as an entry. -/
def ofConflicts (conflicts : List Conflict) : List RecordCommand :=
  conflicts.map fun conflict => add (.ofConflict conflict)

/-- Resolves each entity under the label beside it. -/
def ofDecisions (decisions : List (String × String)) : List RecordCommand :=
  decisions.map fun (entity, label) => resolve entity label

/-! ## One entry -/

/-- What a command makes of an entry that is there. -/
def onEntry : RecordCommand → Entry → Entry
  | add _, entry => entry
  | resolve entity label, entry =>
    if entry.entity = entity then { entry with resolved := true, label := some label } else entry

/-- What the commands make of an entry that is there, one after the other. -/
def follow (commands : List RecordCommand) (entry : Entry) : Entry :=
  commands.foldl (fun entry command => command.onEntry entry) entry

/-- The entries that the commands add, each as the commands after it leave it. -/
def added : List RecordCommand → List Entry
  | [] => []
  | add entry :: commands => follow commands entry :: added commands
  | resolve _ _ :: commands => added commands

/-- The label of the last decision on an entity. -/
def lastLabel (decisions : List (String × String)) (entity : String) : Option String :=
  decisions.reverse.lookup entity

end RecordCommand

end VersionControl
