import Mathlib.Data.List.Induction
import VersionControl.Merge.Command

/-!
# Runs on a merge record

A run of commands keeps what the merge was started with and leaves each entry as the commands after it make it.
The status is the one that the entries call for after every run, since each command that changes them refreshes
it.
-/

namespace VersionControl.MergeRecord

open RecordCommand (follow added run ofConflicts ofDecisions lastLabel)

variable {record : MergeRecord} {entries : List Entry}

/-! ## The status that entries call for -/

def Status.ofEntries (entries : List Entry) : Status :=
  if entries = [] then .inProgress
  else if ∀ entry ∈ entries, entry.resolved = true then .resolved
  else .conflicted

theorem ofEntries_eq_inProgress_iff : Status.ofEntries entries = .inProgress ↔ entries = [] := by
  unfold Status.ofEntries
  split
  case isTrue hempty => simp [hempty]
  case isFalse hentries => split <;> simp [hentries]

theorem ofEntries_eq_resolved_iff : Status.ofEntries entries = .resolved ↔
    entries ≠ [] ∧ ∀ entry ∈ entries, entry.resolved = true := by
  unfold Status.ofEntries
  split
  case isTrue hempty => simp [hempty]
  case isFalse hentries =>
    split
    case isTrue hall => exact ⟨fun _ => ⟨hentries, hall⟩, fun _ => rfl⟩
    case isFalse hopen => exact ⟨nofun, fun h => absurd h.2 hopen⟩

theorem ofEntries_eq_conflicted_iff : Status.ofEntries entries = .conflicted ↔
    ∃ entry ∈ entries, entry.resolved = false := by
  unfold Status.ofEntries
  split
  case isTrue hempty => simp [hempty]
  case isFalse =>
    split
    case isTrue hall => simpa using hall
    case isFalse hopen => simpa using hopen

/-- The status is the one that the entries call for. -/
def IsCurrent (record : MergeRecord) : Prop := record.status = .ofEntries record.entries

theorem isCurrent_ofOptions (options : Options) : IsCurrent (ofOptions options) := rfl

/-- Refreshing passes over a record without entries, so its status has to be right before. -/
theorem isCurrent_refresh (h : record.entries = [] → record.status = .inProgress) :
    IsCurrent record.refresh := by
  unfold IsCurrent refresh
  cases hentries : record.entries with
  | nil => simp [hentries, h hentries, Status.ofEntries]
  | cons entry entries => simp [hentries, Status.ofEntries, allResolved]

/-! ## One command -/

@[simp] theorem toOptions_refresh (record : MergeRecord) : record.refresh.toOptions = record.toOptions := by
  unfold refresh
  split <;> rfl

@[simp] theorem entries_refresh (record : MergeRecord) : record.refresh.entries = record.entries := by
  unfold refresh
  split <;> rfl

theorem toOptions_perform (command : RecordCommand) (record : MergeRecord) :
    (command.perform record).toOptions = record.toOptions := by
  cases command with
  | add entry => exact toOptions_refresh _
  | resolve entity label => exact toOptions_refresh _

theorem entries_perform (command : RecordCommand) (record : MergeRecord) :
    (command.perform record).entries = record.entries.map command.onEntry ++ added [command] := by
  cases command with
  | add entry =>
      have hkept : record.entries.map (RecordCommand.add entry).onEntry = record.entries := List.map_id _
      rw [hkept]
      exact entries_refresh _
  | resolve entity label =>
      rw [added, added, List.append_nil]
      exact entries_refresh _

theorem IsCurrent.perform (h : IsCurrent record) (command : RecordCommand) :
    IsCurrent (command.perform record) := by
  cases command with
  | add entry => exact isCurrent_refresh fun hempty => absurd hempty (by simp)
  | resolve entity label =>
      refine isCurrent_refresh fun hempty => h.trans ?_
      exact ofEntries_eq_inProgress_iff.2 (List.map_eq_nil_iff.1 hempty)

/-! ## Runs -/

theorem toOptions_run (commands : List RecordCommand) (record : MergeRecord) :
    (run commands record).toOptions = record.toOptions := by
  induction commands generalizing record with
  | nil => rfl
  | cons command commands ih => rw [RecordCommand.run_cons, ih, toOptions_perform]

theorem IsCurrent.run (h : IsCurrent record) (commands : List RecordCommand) :
    IsCurrent (run commands record) := by
  induction commands generalizing record with
  | nil => exact h
  | cons command commands ih => exact ih (h.perform command)

theorem added_cons (command : RecordCommand) (commands : List RecordCommand) :
    added (command :: commands) = (added [command]).map (follow commands) ++ added commands := by
  cases command <;> rfl

/-- A run leaves the entries that were there and those that it adds, each as the commands after it make it. -/
theorem entries_run (commands : List RecordCommand) (record : MergeRecord) :
    (run commands record).entries = record.entries.map (follow commands) ++ added commands := by
  induction commands generalizing record with
  | nil =>
      have hkept : record.entries.map (follow []) = record.entries := List.map_id _
      rw [hkept, added, List.append_nil]
      rfl
  | cons command commands ih =>
      calc (run (command :: commands) record).entries
          = (command.perform record).entries.map (follow commands) ++ added commands := ih _
        _ = record.entries.map (follow (command :: commands)) ++
              ((added [command]).map (follow commands) ++ added commands) := by
            rw [entries_perform, List.map_append, List.map_map, List.append_assoc]
            rfl
        _ = record.entries.map (follow (command :: commands)) ++ added (command :: commands) := by
            rw [← added_cons]

/-! ## Conflicts taken down and decided -/

theorem follow_ofConflicts (conflicts : List Conflict) (entry : Entry) :
    follow (ofConflicts conflicts) entry = entry := by
  induction conflicts with
  | nil => rfl
  | cons conflict conflicts ih => exact ih

theorem added_ofConflicts (conflicts : List Conflict) :
    added (ofConflicts conflicts) = conflicts.map .ofConflict := by
  induction conflicts with
  | nil => rfl
  | cons conflict conflicts ih =>
      calc added (ofConflicts (conflict :: conflicts))
          = follow (ofConflicts conflicts) (.ofConflict conflict) :: added (ofConflicts conflicts) := rfl
        _ = (conflict :: conflicts).map .ofConflict := by rw [follow_ofConflicts, ih, List.map_cons]

theorem added_ofDecisions (decisions : List (String × String)) : added (ofDecisions decisions) = [] := by
  induction decisions with
  | nil => rfl
  | cons decision decisions ih => exact ih

theorem entries_run_decisions (decisions : List (String × String)) (record : MergeRecord) :
    (run (ofDecisions decisions) record).entries = record.entries.map (follow (ofDecisions decisions)) := by
  rw [entries_run, added_ofDecisions, List.append_nil]

theorem lastLabel_concat (decisions : List (String × String)) (named label entity : String) :
    lastLabel (decisions ++ [(named, label)]) entity =
      if entity = named then some label else lastLabel decisions entity := by
  rw [lastLabel, List.reverse_append, List.reverse_singleton, List.singleton_append, List.lookup_cons]
  by_cases h : entity = named
  · simp [h]
  · simp [h, beq_false_of_ne h, lastLabel]

/-- The last decision on an entity is the one that counts. -/
theorem follow_ofDecisions (decisions : List (String × String)) (entry : Entry) :
    follow (ofDecisions decisions) entry =
      if entry.entity ∈ decisions.map (·.1) then
        { entry with resolved := true, label := lastLabel decisions entry.entity }
      else entry := by
  induction decisions using List.reverseRecOn with
  | nil => rfl
  | append_singleton decisions decision ih =>
      obtain ⟨named, label⟩ := decision
      have hlast : follow (ofDecisions (decisions ++ [(named, label)])) entry =
          (RecordCommand.resolve named label).onEntry (follow (ofDecisions decisions) entry) := by
        simp [follow, ofDecisions, List.foldl_append]
      rw [hlast, ih, lastLabel_concat]
      by_cases hbefore : entry.entity ∈ decisions.map (·.1)
      · rw [if_pos hbefore, if_pos (by simp only [List.map_append, List.mem_append, hbefore, true_or])]
        by_cases hnamed : entry.entity = named <;> simp [RecordCommand.onEntry, hnamed]
      · rw [if_neg hbefore]
        by_cases hnamed : entry.entity = named
        · simp [RecordCommand.onEntry, hnamed]
        · rw [if_neg (by simpa [hnamed] using hbefore), RecordCommand.onEntry, if_neg hnamed]

/-! ## What a record tells of its entries -/

theorem allResolved_iff : record.allResolved = true ↔ ∀ entry ∈ record.entries, entry.resolved = true := by
  rw [allResolved, List.all_eq_true]

theorem unresolved_eq_nil_iff :
    record.unresolved = [] ↔ ∀ entry ∈ record.entries, entry.resolved = true := by
  simp [unresolved, List.filter_eq_nil_iff]

/-- The status, the open entries and the answer whether all entries are resolved tell the same. -/
structure IsConsistent (record : MergeRecord) : Prop where
  inProgress_iff : record.status = .inProgress ↔ record.entries = []
  resolved_iff : record.status = .resolved ↔
    record.entries ≠ [] ∧ ∀ entry ∈ record.entries, entry.resolved = true
  conflicted_iff : record.status = .conflicted ↔ ∃ entry ∈ record.entries, entry.resolved = false
  allResolved_iff_unresolved : record.allResolved = true ↔ record.unresolved = []
  allResolved_iff_status : record.allResolved = true ↔ record.status ≠ .conflicted

theorem IsCurrent.isConsistent (h : IsCurrent record) : IsConsistent record where
  inProgress_iff := by rw [h, ofEntries_eq_inProgress_iff]
  resolved_iff := by rw [h, ofEntries_eq_resolved_iff]
  conflicted_iff := by rw [h, ofEntries_eq_conflicted_iff]
  allResolved_iff_unresolved := allResolved_iff.trans unresolved_eq_nil_iff.symm
  allResolved_iff_status := by
    rw [h, ne_eq, ofEntries_eq_conflicted_iff, allResolved_iff]
    simp

/-- Every run on a new record leaves a consistent one. It holds what the merge was started with and the entries
that were added, in order. -/
theorem isConsistent_run (options : Options) (commands : List RecordCommand) :
    IsConsistent (run commands (ofOptions options)) ∧
      (run commands (ofOptions options)).toOptions = options ∧
      (run commands (ofOptions options)).entries = added commands :=
  ⟨((isCurrent_ofOptions options).run commands).isConsistent, toOptions_run commands _,
    entries_run commands _⟩

/-- The next open entry puts a resolved record back into conflict. -/
example : (run [.add { entity := "posts:a" }, .resolve "posts:a" "ours", .add { entity := "posts:b" }]
    (ofOptions { startedAt := 0 })).status = .conflicted := by
  decide

end VersionControl.MergeRecord
