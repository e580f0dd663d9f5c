import VersionControl.Branch.Basic

/-!
# Commands

The calls that change branches, as data, and what a run of them does to a repository.
-/

namespace VersionControl

inductive BranchCommand
  | create (name : String) (base : Option String)
  | checkout (name : String) (createMissing : Bool)
  | remove (name : String) (force : Bool)
  | rename (oldName newName : String)
  deriving DecidableEq, Repr

namespace BranchCommand

variable {σ : Type} [ObjectStore σ]

def operation : BranchCommand → Branch.Operation σ Unit
  | create name base => Branch.create name base
  | checkout name createMissing => Branch.checkout name createMissing
  | remove name force => Branch.remove name force
  | rename oldName newName => Branch.rename oldName newName

/-- The repository after the commands; one that fails leaves behind what it changed until then. -/
def run (commands : List BranchCommand) (repo : Repository σ) : Repository σ :=
  commands.foldl (fun repo command => (command.operation repo).2) repo

@[simp] theorem run_cons (command : BranchCommand) (commands : List BranchCommand) (repo : Repository σ) :
    run (command :: commands) repo = run commands (command.operation repo).2 := rfl

theorem run_append (before after : List BranchCommand) (repo : Repository σ) :
    run (before ++ after) repo = run after (run before repo) := List.foldl_append

end BranchCommand

end VersionControl
