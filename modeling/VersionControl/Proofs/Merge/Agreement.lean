import VersionControl.Proofs.Merge.Outcome
import VersionControl.Proofs.Merge.Record

/-!
# A merge and its record agree

A record that takes down the conflicts of a merge has one entry for each, open where the strategy settled
nothing. A decision on each open one resolves the record, in any order. It leaves the settled entries alone if no two
entries are about one entity, which is so where nothing but deletions is in conflict.
-/

namespace VersionControl.Merge

open MergeRecord (Entry ofOptions entries_run)
open RecordCommand (run ofConflicts ofDecisions lastLabel)
open Analysis (Stateless)

variable {ours theirs : List Change} {options : Options} {conflicts : List Conflict}

/-! ## The conflicts left open -/

/-- The conflicts that no strategy settled. -/
def remaining (conflicts : List Conflict) : List Conflict := conflicts.filter (·.resolved ≠ some true)

theorem resolved_ofConflict_eq_false_iff {conflict : Conflict} :
    (Entry.ofConflict conflict).resolved = false ↔ conflict.resolved ≠ some true := by
  rw [Entry.ofConflict]
  cases conflict.resolved with
  | none => simp
  | some settled => cases settled <;> simp

/-- Where nothing is compared a merge reports no two conflicts on one target. -/
theorem nodup_target_streams [ValueLibrary] (h : Stateless ours theirs) (options : Options) :
    ((streams ours theirs options).conflicts.map (·.target)).Nodup := by
  have htargets : (streams ours theirs options).conflicts.map (·.target) =
      ((streams ours theirs options).conflicts.map Conflict.unflagged).map (·.target) := by
    rw [List.map_map]
    rfl
  rw [htargets, map_unflagged_conflicts]
  exact Analysis.nodup_target_conflicts h

theorem target_mem_remaining {conflict : Conflict} (hmem : conflict ∈ conflicts)
    (hopen : conflict.resolved ≠ some true) : conflict.target ∈ (remaining conflicts).map (·.target) :=
  List.mem_map_of_mem (List.mem_filter.2 ⟨hmem, decide_eq_true hopen⟩)

/-- Where targets are distinct, a conflict is open exactly if its target is that of an open one. -/
theorem target_mem_remaining_iff (hnodup : (conflicts.map (·.target)).Nodup) {conflict : Conflict}
    (hmem : conflict ∈ conflicts) :
    conflict.target ∈ (remaining conflicts).map (·.target) ↔ conflict.resolved ≠ some true := by
  refine ⟨fun htarget => ?_, target_mem_remaining hmem⟩
  obtain ⟨other, hother, hsame⟩ := List.mem_map.1 htarget
  obtain ⟨hotherMem, hopen⟩ := List.mem_filter.1 hother
  rw [← List.inj_on_of_nodup_map hnodup hotherMem hmem hsame]
  exact of_decide_eq_true hopen

/-! ## The record of a merge -/

theorem entries_run_ofConflicts (conflicts : List Conflict) (start : MergeRecord.Options) :
    (run (ofConflicts conflicts) (ofOptions start)).entries = conflicts.map .ofConflict :=
  (entries_run _ _).trans (MergeRecord.added_ofConflicts conflicts)

theorem unresolved_run_ofConflicts (conflicts : List Conflict) (start : MergeRecord.Options) :
    (run (ofConflicts conflicts) (ofOptions start)).unresolved = (remaining conflicts).map .ofConflict := by
  rw [MergeRecord.unresolved, entries_run_ofConflicts, List.filter_map, remaining]
  congr 1
  refine List.filter_congr fun conflict _ => ?_
  rw [Bool.eq_iff_iff, decide_eq_true_eq, ← resolved_ofConflict_eq_false_iff]
  simp

section Decisions

variable {decisions : List (String × String)} {record : MergeRecord}

/-- Decisions on the open conflicts leave no entry open. -/
theorem resolved_run_ofDecisions (hdecisions : (decisions.map (·.1)).Perm ((remaining conflicts).map (·.target)))
    (hentries : record.entries = conflicts.map .ofConflict) :
    ∀ entry ∈ (run (ofDecisions decisions) record).entries, entry.resolved = true := by
  rw [MergeRecord.entries_run_decisions, hentries, List.map_map]
  intro entry hmem
  obtain ⟨conflict, hconflict, rfl⟩ := List.mem_map.1 hmem
  rw [Function.comp_apply, MergeRecord.follow_ofDecisions]
  split
  case isTrue => rfl
  case isFalse hunnamed =>
    rw [← Bool.not_eq_false, resolved_ofConflict_eq_false_iff]
    exact fun hopen => hunnamed (hdecisions.mem_iff.2 (target_mem_remaining hconflict hopen))

/-- What decisions on the open conflicts make of the record. -/
theorem entries_run_ofDecisions (hnodup : (conflicts.map (·.target)).Nodup)
    (hdecisions : (decisions.map (·.1)).Perm ((remaining conflicts).map (·.target)))
    (hentries : record.entries = conflicts.map .ofConflict) :
    (run (ofDecisions decisions) record).entries = record.entries.map fun entry =>
      if entry.resolved then entry
      else { entry with resolved := true, label := lastLabel decisions entry.entity } := by
  rw [MergeRecord.entries_run_decisions, hentries]
  simp only [List.map_map]
  refine List.map_congr_left fun conflict hmem => ?_
  have hnamed : (Entry.ofConflict conflict).entity ∈ decisions.map (·.1) ↔
      (Entry.ofConflict conflict).resolved = false := by
    rw [hdecisions.mem_iff, resolved_ofConflict_eq_false_iff]
    exact target_mem_remaining_iff hnodup hmem
  simp only [Function.comp_apply, MergeRecord.follow_ofDecisions, hnamed]
  cases (Entry.ofConflict conflict).resolved <;> rfl

end Decisions

/-- The record of a merge tells the same of its conflicts as the merge does. One decision on each conflict that
is left open resolves it, and changes no other entry if no two conflicts are on one target. -/
theorem record_agrees [ValueLibrary] (ours theirs : List Change) (options : Options) (start : MergeRecord.Options) :
    let outcome := streams ours theirs options
    let record := run (ofConflicts outcome.conflicts) (ofOptions start)
    record.allResolved = outcome.isSuccess ∧
      (record.status = .inProgress ↔ outcome.conflicts = []) ∧
      record.unresolved = (remaining outcome.conflicts).map .ofConflict ∧
      ∀ decisions : List (String × String),
        (decisions.map (·.1)).Perm ((remaining outcome.conflicts).map (·.target)) →
          (outcome.conflicts ≠ [] → (run (ofDecisions decisions) record).status = .resolved) ∧
            (Stateless ours theirs ∨ (outcome.conflicts.map (·.target)).Nodup →
              (run (ofDecisions decisions) record).entries = record.entries.map fun entry =>
                if entry.resolved then entry
                else { entry with resolved := true, label := lastLabel decisions entry.entity }) := by
  intro outcome record
  have hentries : record.entries = outcome.conflicts.map .ofConflict := entries_run_ofConflicts _ start
  have hcurrent : record.IsCurrent := (MergeRecord.isCurrent_ofOptions start).run _
  refine ⟨?_, ?_, unresolved_run_ofConflicts _ start, fun decisions hdecisions => ⟨fun hconflicts => ?_, ?_⟩⟩
  · rw [MergeRecord.allResolved, hentries, List.all_map]
    rfl
  · rw [hcurrent, MergeRecord.ofEntries_eq_inProgress_iff, hentries, List.map_eq_nil_iff]
  · rw [hcurrent.run (ofDecisions decisions), MergeRecord.ofEntries_eq_resolved_iff]
    refine ⟨?_, resolved_run_ofDecisions hdecisions hentries⟩
    rw [MergeRecord.entries_run_decisions, hentries]
    simpa using hconflicts
  · intro hdistinct
    have hnodup : (outcome.conflicts.map (·.target)).Nodup :=
      hdistinct.elim (fun hstateless => nodup_target_streams hstateless options) id
    exact entries_run_ofDecisions hnodup hdecisions hentries

/-- A rule of its own settles one of three conflicts, and the others are decided from the last to the first. -/
theorem record_agrees_of_one_settled :
    let ours : List Change := [{ id := "o1", time := 1, kind := .delete, target := "posts:a" },
      { id := "o2", time := 4, kind := .update, target := "posts:b" },
      { id := "o3", time := 2, kind := .unrelate, target := "posts:c" }]
    let theirs : List Change := [{ id := "t1", time := 3, kind := .relate, target := "posts:c" },
      { id := "t2", time := 2, kind := .update, target := "posts:a" },
      { id := "t3", time := 5, kind := .delete, target := "posts:b" }]
    let options : Options :=
      { strategy := some (.custom fun c => { label := "rule", isManual := c.target ≠ "posts:a" }) }
    let outcome := streams ours theirs options
    let record := run (ofConflicts outcome.conflicts) (ofOptions { startedAt := 0 })
    let decisions := [("posts:c", "theirs"), ("posts:b", "ours")]
    (decisions.map (·.1)).Perm ((remaining outcome.conflicts).map (·.target)) ∧
      record.allResolved = outcome.isSuccess ∧ record.status = .conflicted ∧
      record.unresolved.map (·.entity) = ["posts:b", "posts:c"] ∧
      (run (ofDecisions decisions) record).status = .resolved ∧
      (run (ofDecisions decisions) record).entries.map (·.label) = [none, some "ours", some "theirs"] := by
  intro ours theirs options outcome record decisions
  have hdecisions : (decisions.map (·.1)).Perm ((remaining outcome.conflicts).map (·.target)) := by decide
  obtain ⟨hsuccess, -, hopen, hdecided⟩ := record_agrees ours theirs options { startedAt := 0 }
  obtain ⟨hstatus, hentries⟩ := hdecided decisions hdecisions
  have hstateless : Stateless ours theirs := Analysis.stateless_of_after (by decide) (by decide)
  have hunresolved : record.unresolved = (remaining outcome.conflicts).map .ofConflict := hopen
  refine ⟨hdecisions, hsuccess, by decide, ?_, hstatus (by decide), ?_⟩
  · rw [hunresolved]
    decide
  · refine (congrArg (List.map Entry.label) (hentries (.inl hstateless))).trans ?_
    decide

end VersionControl.Merge
