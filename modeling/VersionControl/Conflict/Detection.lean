import VersionControl.Conflict.Basic

/-!
# Detection of conflicts

Only the latest change of each target counts. Two updates whose states are objects are compared field by field,
and fields that differ by operators that commute are no conflict; other states are compared as wholes.
-/

namespace VersionControl

/-- A field that both sides changed by operators that commute. -/
structure CommutingField where
  target : String
  field : String
  ours : Operators
  theirs : Operators

structure Analysis where
  conflicts : List Conflict := []
  /-- The fields on which both sides differ without conflict. -/
  commuting : List CommutingField := []

def Conflict.ofStates (kind : Kind) (ourChange theirChange : Change) (ours theirs : Option Value) : Conflict :=
  { kind, target := ourChange.target, ours, theirs, base := ourChange.before.or theirChange.before,
    ourChange, theirChange }

namespace Analysis

def join (parts : List Analysis) : Analysis where
  conflicts := parts.flatMap (·.conflicts)
  commuting := parts.flatMap (·.commuting)

open ValueLibrary (members?)

variable [ValueLibrary]

/-- The state that a change leaves behind; a deletion leaves none, whatever it carries. -/
def remaining (change : Change) : Option Value := if change.kind.isDelete then none else change.state

/-- Two states that are compared as wholes. -/
def ofWholes (kind : Conflict.Kind) (ours theirs : Change) : Analysis :=
  if Value.agree ours.state theirs.state then {}
  else { conflicts := [.ofStates kind ours theirs ours.state theirs.state] }

/-- One field of two states. -/
def ofField (ours theirs : Change) (field : String) : Analysis :=
  let ourValue := Value.member? ours.state field
  let theirValue := Value.member? theirs.state field
  let ourOps := ours.effectiveOperators
  let theirOps := theirs.effectiveOperators
  if Value.agree ourValue theirValue then {}
  else if !ourOps.isEmpty && !theirOps.isEmpty && ourOps.commutesOn theirOps field then
    { commuting := [{ target := ours.target, field, ours := ourOps, theirs := theirOps }] }
  else
    { conflicts := [{ Conflict.ofStates .concurrentUpdate ours theirs ourValue theirValue with
      field := some field
      base := (Value.member? ours.before field).or (Value.member? theirs.before field) }] }

/-- The fields of two objects, in the order of their names, or two other states as wholes. -/
def ofUpdates (ours theirs : Change) : Analysis :=
  match ours.state.bind members?, theirs.state.bind members? with
  | some mine, some yours => join ((Dict.unionWith (fun _ value _ => value) mine yours).keys.map (ofField ours theirs))
  | _, _ => ofWholes .concurrentUpdate ours theirs

/-- What the latest changes of one target on both sides come to. Two deletions agree, and a deletion conflicts with
anything else. -/
def between (ours theirs : Change) : Analysis :=
  if ours.kind.isDelete && theirs.kind.isDelete then {}
  else if ours.kind.isDelete || theirs.kind.isDelete then
    { conflicts := [.ofStates .deleteUpdate ours theirs (remaining ours) (remaining theirs)] }
  else if ours.kind.isCreate && theirs.kind.isCreate then ofWholes .createCreate ours theirs
  else ofUpdates ours theirs

def ofStreams (ours theirs : List Change) : Analysis :=
  let theirLatest := Change.latest theirs
  join <| (Change.latest ours).filterMap fun mine =>
    (theirLatest.find? (·.target = mine.target)).map (between mine)

end Analysis

end VersionControl
