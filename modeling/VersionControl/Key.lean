import VersionControl.Text

/-!
# Storage keys

A key is a text whose segments stand between slashes. A key that reaches the disk has to be storable: each
segment is a plain file name, and none looks like a staging file.
-/

namespace VersionControl.Key

def segments (key : String) : List String := Text.split '/' key

def ancestors (key : String) : List String := Text.beforeEach '/' key

def parent (key : String) : String := (ancestors key).getLast?.getD ""

def baseName (key : String) : String := (segments key).getLast?.getD ""

/-- Staging files carry a mark at their end which no segment of a storable key has. -/
def isStagingName (name : String) : Bool := Text.endsWithChar '~' name

def stagingName (key : String) (serial : Nat) : String := key ++ "." ++ toString serial ++ ".tmp~"

/-- A name that leads from a directory to itself or to the one above it, so that no entry can bear it. -/
def isSpecialName (name : String) : Bool := name = "" || name = "." || name = ".."

def isPlainSegment (segment : String) : Bool := !isSpecialName segment && !isStagingName segment

def isStorable (key : String) : Bool :=
  !key.toList.contains '\\' && (segments key).all isPlainSegment

/-- A path with a slash at its end leads to the directory before it. -/
def withoutSlash (key : String) : String :=
  if Text.endsWithChar '/' key then String.ofList key.toList.dropLast else key

end VersionControl.Key
