import VersionControl.Commit

/-!
# Commit commands

The calls on commits that can be refused, as data, and what each answers.
-/

namespace VersionControl

inductive CommitCommand
  | save (commit : Commit)
  | load (hash : String)
  | log (hash : String) (limit : Nat)
  | isAncestor (ancestor descendant : String)
  | mergeBase (a b : String)
  deriving DecidableEq, Repr

inductive CommitAnswer
  | saved
  | loaded (commit : Commit)
  | history (commits : List Commit)
  | related (answer : Bool)
  | base (hash : Option String)
  deriving DecidableEq, Repr

namespace CommitCommand

variable {σ : Type} [ObjectStore σ]

def operation (format : CommitFormat) : CommitCommand → Transition σ CommitAnswer
  | save commit => do
    Commit.save format commit
    return .saved
  | load hash => .look fun store => .loaded <$> Commit.load format store hash
  | log hash limit => .look fun store => .history <$> Commit.log format store hash limit
  | isAncestor ancestor descendant =>
    .look fun store => .related <$> Commit.isAncestor format store ancestor descendant
  | mergeBase a b => .look fun store => .base <$> Commit.mergeBase? format store a b

end CommitCommand

end VersionControl
