/-!
# Branch events

What is published about branches, each after the change it tells of was stored.
-/

namespace VersionControl

inductive BranchEvent
  | created (name commit : String)
  /-- `commit` is what the branch pointed at. -/
  | deleted (name commit : String) (forced : Bool)
  | renamed (oldName newName : String) (wasCurrent : Bool)
  /-- There is no previous branch when HEAD was unset or detached. -/
  | checkedOut (name : String) (previous : Option String)
  deriving DecidableEq, Repr

namespace BranchEvent

inductive Topic
  | created
  | deleted
  | renamed
  | checkedOut
  deriving DecidableEq, Repr

def Topic.all : List Topic := [.created, .deleted, .renamed, .checkedOut]

def topic : BranchEvent → Topic
  | .created .. => .created
  | .deleted .. => .deleted
  | .renamed .. => .renamed
  | .checkedOut .. => .checkedOut

end BranchEvent

end VersionControl
