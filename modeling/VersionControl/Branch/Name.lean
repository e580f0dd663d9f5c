import VersionControl.Key
import VersionControl.Ref

/-!
# Branch names

A branch name is one or more segments between slashes, each made of letters, digits, dots, underscores and
hyphens. HEAD and the segments that mean a directory itself or the one above are reserved.
-/

namespace VersionControl.BranchName

def isNameChar (c : Char) : Bool := c.isAlphanum || c = '.' || c = '_' || c = '-'

/-- Reads name characters and single slashes between them; `inSegment` tells that the last one read was a
name character. -/
def isSegmented (inSegment : Bool) : List Char → Bool
  | [] => inSegment
  | c :: cs =>
    if isNameChar c then isSegmented true cs
    else c = '/' && inSegment && isSegmented false cs

def hasReservedSegment (name : String) : Bool :=
  (Key.segments name).any fun segment => segment = "." || segment = ".."

def isValid (name : String) : Bool :=
  name ≠ Head.name && isSegmented false name.toList && !hasReservedSegment name

end VersionControl.BranchName
