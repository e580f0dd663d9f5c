import VersionControl.Branch.Basic
import VersionControl.Dict

/-!
# Branch tables

The branches and the current one as someone knows them who was shown them once and has since then only been told
of changes.
-/

namespace VersionControl

/-- The commit of every branch, and the branch that HEAD is in. -/
structure BranchTable where
  commits : Dict String
  current : Option String
  deriving DecidableEq

namespace BranchTable

def ofList (branches : List Branch) (current : Option String) : BranchTable :=
  { commits := .ofList (branches.map fun branch => (branch.name, branch.commit)), current }

def toList (table : BranchTable) : List Branch :=
  table.commits.entries.map fun (name, commit) => { name, commit, isCurrent := table.current = some name }

def apply (table : BranchTable) : BranchEvent → BranchTable
  | .created name commit => { table with commits := table.commits.insert name commit }
  | .deleted name _ _ => { table with commits := table.commits.erase name }
  | .renamed oldName newName wasCurrent =>
    { commits := match table.commits.get? oldName with
        | some commit => (table.commits.erase oldName).insert newName commit
        | none => table.commits
      current := if wasCurrent then some newName else table.current }
  | .checkedOut name _ => { table with current := some name }

def replay (events : List BranchEvent) (table : BranchTable) : BranchTable := events.foldl apply table

theorem replay_append (before after : List BranchEvent) (table : BranchTable) :
    replay (before ++ after) table = replay after (replay before table) := List.foldl_append

end BranchTable

end VersionControl
