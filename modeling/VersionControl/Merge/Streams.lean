import VersionControl.Conflict.Detection
import VersionControl.Resolution.Strategy

/-!
# Merging of streams

Two diverged streams of changes become one in ascending time. What both sides recorded alike is kept once,
and conflicts are reported beside the merged stream, which they do not alter.
-/

namespace VersionControl.Merge

structure Options where
  strategy : Option Strategy := none
  autoMerge : Bool := false

structure Stats where
  fromOurs : Nat
  fromTheirs : Nat
  entitiesProcessed : Nat
  entitiesWithConflicts : Nat
  autoMerged : Nat
  deriving DecidableEq, Repr

structure Outcome where
  changes : List Change
  conflicts : List Conflict
  resolutions : List Resolution
  stats : Stats
  /-- The combined operators of each target with a commuting field. -/
  combined : Dict Operators

section Library

variable [ValueLibrary]

def isSameCreation (a b : Change) : Bool :=
  a.kind.isCreate && b.kind.isCreate && a.kind = b.kind && a.target = b.target && Value.agree a.state b.state

/-- Whether our stream already holds what a change of theirs tells: it has the identifier, or it creates the
same entity in the same state. A change without an identifier shares it with no other. -/
def isKnown (ours : List Change) (change : Change) : Bool :=
  (change.id ≠ "" && ours.any (·.id = change.id)) || ours.any (isSameCreation · change)

/-- Our stream and then what theirs adds to it. -/
def union (ours theirs : List Change) : List Change := ours ++ theirs.filter (!isKnown ours ·)

/-- The operators of commuting fields, combined once for each target. -/
def combineCommuting (commuting : List CommutingField) : Dict Operators :=
  commuting.foldl (fun combined field =>
    if ((combined.get? field.target).getD .empty).isEmpty then
      combined.insert field.target (field.ours.combine field.theirs)
    else combined) .empty

end Library

/-- Marks each conflict with whether its resolution settled it. -/
def flag (conflicts : List Conflict) (resolutions : List Resolution) : List Conflict :=
  List.zipWith (fun conflict r => { conflict with resolved := some !r.isManual }) conflicts resolutions

def streams [ValueLibrary] (ours theirs : List Change) (options : Options := {}) : Outcome :=
  let analysis := Analysis.ofStreams ours theirs
  let commuting := if options.autoMerge then analysis.commuting else []
  let resolutions := match options.strategy with
    | some strategy => strategy.applyAll analysis.conflicts
    | none => []
  { changes := Change.sort (union ours theirs)
    conflicts := if options.strategy.isSome then flag analysis.conflicts resolutions else analysis.conflicts
    resolutions
    stats := {
      fromOurs := ours.length
      fromTheirs := theirs.length
      entitiesProcessed := (Change.targets (ours ++ theirs)).length
      entitiesWithConflicts := (analysis.conflicts.map (·.target)).eraseDups.length
      autoMerged := commuting.length }
    combined := combineCommuting commuting }

/-- A merge succeeds if no conflict is left open. -/
def Outcome.isSuccess (outcome : Outcome) : Bool := outcome.conflicts.all (·.resolved.getD false)

end VersionControl.Merge
