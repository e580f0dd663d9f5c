import VersionControl.Merge.Streams
import VersionControl.Proofs.Conflict.Deletion
import VersionControl.Proofs.Resolution.Strategy

/-!
# What a strategy does to a merge

A strategy resolves the conflicts that detection reports and says of each whether it is settled. All else is the
same with any strategy or none. The merge succeeds exactly if no resolution is left open.
-/

namespace VersionControl

/-- The conflict as it was before a strategy said whether it is settled. -/
def Conflict.unflagged (conflict : Conflict) : Conflict := { conflict with resolved := none }

namespace Merge

open Analysis (Stateless)

section Library

variable [ValueLibrary] {ours theirs : List Change} {options : Options}

/-! ## Flags -/

theorem flag_applyAll (strategy : Strategy) (conflicts : List Conflict) :
    flag conflicts (strategy.applyAll conflicts) =
      conflicts.map fun c => { c with resolved := some !(strategy.apply c).isManual } := by
  rw [flag, Strategy.applyAll, List.zipWith_map_right, List.zipWith_self]

theorem conflicts_of_none (h : options.strategy = none) :
    (streams ours theirs options).conflicts = (Analysis.ofStreams ours theirs).conflicts := by
  simp [streams, h]

theorem conflicts_of_strategy {strategy : Strategy} (h : options.strategy = some strategy) :
    (streams ours theirs options).conflicts = (Analysis.ofStreams ours theirs).conflicts.map
      fun c => { c with resolved := some !(strategy.apply c).isManual } := by
  simp only [streams, h, Option.isSome_some, if_true, flag_applyAll]

theorem resolutions_of_none (h : options.strategy = none) : (streams ours theirs options).resolutions = [] := by
  simp [streams, h]

theorem resolutions_of_strategy {strategy : Strategy} (h : options.strategy = some strategy) :
    (streams ours theirs options).resolutions =
      (Analysis.ofStreams ours theirs).conflicts.map fun c => strategy.apply c := by
  simp only [streams, h]
  rfl

/-- Flags apart a merge reports what detection finds, in which nothing is flagged. -/
theorem map_unflagged_conflicts (ours theirs : List Change) (options : Options) :
    (streams ours theirs options).conflicts.map Conflict.unflagged =
      (Analysis.ofStreams ours theirs).conflicts := by
  have hfound : (Analysis.ofStreams ours theirs).conflicts.map Conflict.unflagged =
      (Analysis.ofStreams ours theirs).conflicts := by
    refine (List.map_congr_left fun c hmem => ?_).trans (List.map_id _)
    rw [Conflict.unflagged, ← Analysis.resolved_of_mem_conflicts hmem, id]
  cases hstrategy : options.strategy with
  | none => rw [conflicts_of_none hstrategy, hfound]
  | some strategy =>
      rw [conflicts_of_strategy hstrategy, List.map_map]
      exact hfound

/-- Only what is merged by commuting operators is for the options to say. -/
theorem stats_eq (ours theirs : List Change) (options : Options) :
    (streams ours theirs options).stats =
      { (streams ours theirs).stats with
        autoMerged := if options.autoMerge then (Analysis.ofStreams ours theirs).commuting.length else 0 } := by
  simp only [streams, apply_ite List.length, List.length_nil]

theorem stats_eq_iff (ours theirs : List Change) (options other : Options) :
    (streams ours theirs options).stats = (streams ours theirs other).stats ↔
      options.autoMerge = other.autoMerge ∨ (Analysis.ofStreams ours theirs).commuting = [] := by
  rw [stats_eq ours theirs options, stats_eq ours theirs other, ← List.length_eq_zero_iff]
  cases options.autoMerge <;> cases other.autoMerge <;> simp [eq_comm]

/-! ## Success -/

/-- Without a strategy every conflict is left open. -/
structure IsUnsettled (outcome : Outcome) : Prop where
  resolutions_eq_nil : outcome.resolutions = []
  resolved_eq_none : ∀ c ∈ outcome.conflicts, c.resolved = none
  isSuccess_iff : outcome.isSuccess = true ↔ outcome.conflicts = []

/-- What a strategy answers is told with each conflict, and the outcome sums the answers up. -/
structure IsSettledBy (strategy : Strategy) (outcome : Outcome) : Prop where
  resolutions_eq : outcome.resolutions = outcome.conflicts.map fun c => strategy.apply c.unflagged
  map_resolved_eq : outcome.conflicts.map (·.resolved) = outcome.resolutions.map fun r => some !r.isManual
  isSuccess_iff : outcome.isSuccess = true ↔ Resolution.allComplete outcome.resolutions = true
  allComplete_iff : Resolution.allComplete outcome.resolutions = true ↔
    Resolution.unresolved outcome.resolutions = []

theorem isUnsettled_streams (h : options.strategy = none) : IsUnsettled (streams ours theirs options) := by
  have hopen : ∀ c ∈ (streams ours theirs options).conflicts, c.resolved = none := by
    rw [conflicts_of_none h]
    exact fun c => Analysis.resolved_of_mem_conflicts
  refine ⟨resolutions_of_none h, hopen, ?_⟩
  rw [Outcome.isSuccess, List.all_eq_true, List.eq_nil_iff_forall_not_mem]
  refine forall₂_congr fun c hmem => ?_
  simp [hopen c hmem]

theorem isSettledBy_streams {strategy : Strategy} (h : options.strategy = some strategy) :
    IsSettledBy strategy (streams ours theirs options) := by
  have hresolutions : (streams ours theirs options).resolutions =
      (Analysis.ofStreams ours theirs).conflicts.map fun c => strategy.apply c := resolutions_of_strategy h
  have hflags : (streams ours theirs options).conflicts.map (·.resolved) =
      (streams ours theirs options).resolutions.map fun r => some !r.isManual := by
    rw [hresolutions, conflicts_of_strategy h, List.map_map, List.map_map]
    rfl
  refine ⟨?_, hflags, ?_, Resolution.allComplete_iff _⟩
  · rw [hresolutions, ← map_unflagged_conflicts ours theirs options, List.map_map]
    rfl
  · calc (streams ours theirs options).isSuccess = true
        ↔ ((streams ours theirs options).conflicts.map (·.resolved)).all (·.getD false) = true := by
          rw [List.all_map]
          rfl
      _ ↔ Resolution.allComplete (streams ours theirs options).resolutions = true := by
          rw [hflags, List.all_map]
          rfl

/-- The options have no part in the merged stream and the conflicts but for their flags, and the flags and the success
follow from what the strategy answers. Statistics tell whether commuting operators are merged if there are any, of
which there are none where nothing is compared. -/
theorem streams_independent_of_options (ours theirs : List Change) (options other : Options) :
    (streams ours theirs options).changes = (streams ours theirs other).changes ∧
      (Stateless ours theirs → (streams ours theirs options).stats = (streams ours theirs other).stats) ∧
      ((streams ours theirs options).stats = (streams ours theirs other).stats ↔
        options.autoMerge = other.autoMerge ∨ (Analysis.ofStreams ours theirs).commuting = []) ∧
      (streams ours theirs options).conflicts.map Conflict.unflagged =
        (streams ours theirs other).conflicts.map Conflict.unflagged ∧
      match options.strategy with
      | none => IsUnsettled (streams ours theirs options)
      | some strategy => IsSettledBy strategy (streams ours theirs options) := by
  refine ⟨rfl, fun hstateless => ?_, stats_eq_iff ours theirs options other, ?_, ?_⟩
  · exact (stats_eq_iff ours theirs options other).2 (.inr (Analysis.commuting_of_stateless hstateless))
  · rw [map_unflagged_conflicts, map_unflagged_conflicts]
  · cases hstrategy : options.strategy with
    | none => exact isUnsettled_streams hstrategy
    | some strategy => exact isSettledBy_streams hstrategy

end Library

end Merge

end VersionControl
