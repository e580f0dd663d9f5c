import Mathlib.Logic.Relation
import VersionControl.Proofs.Merge.Record

/-!
# Decisions on a merge record

Decisions on the entities of a merge, one after the other. Those on different entities do not get in each other's way,
and of those on one entity only the last one shows. No decision opens an entry again.
-/

namespace VersionControl.MergeRecord

open RecordCommand (follow run ofDecisions lastLabel)

variable {record : MergeRecord} {entry : Entry} {entity other : String} {decisions others : List (String × String)}

/-! ## One decision and the next -/

theorem onEntry_comm (h : entity ≠ other) (label otherLabel : String) (entry : Entry) :
    (RecordCommand.resolve other otherLabel).onEntry ((RecordCommand.resolve entity label).onEntry entry) =
      (RecordCommand.resolve entity label).onEntry ((RecordCommand.resolve other otherLabel).onEntry entry) := by
  by_cases hentity : entry.entity = entity
  · have hother : entry.entity ≠ other := hentity ▸ h
    simp [RecordCommand.onEntry, hentity, h]
  · by_cases hother : entry.entity = other <;> simp [RecordCommand.onEntry, hentity, hother, h.symm]

theorem onEntry_onEntry (entity label later : String) (entry : Entry) :
    (RecordCommand.resolve entity later).onEntry ((RecordCommand.resolve entity label).onEntry entry) =
      (RecordCommand.resolve entity later).onEntry entry := by
  by_cases hentity : entry.entity = entity <;> simp [RecordCommand.onEntry, hentity]

/-- A decision refreshes the record anyway. -/
theorem resolve_refresh (record : MergeRecord) (entity label : String) :
    record.refresh.resolve entity label = record.resolve entity label := by
  cases hentries : record.entries with
  | nil => simp [resolve, refresh, hentries]
  | cons entry entries => simp [resolve, refresh, allResolved, hentries]

theorem resolve_resolve (record : MergeRecord) (entity label other otherLabel : String) :
    (record.resolve entity label).resolve other otherLabel = refresh { record with
      entries := record.entries.map fun entry =>
        (RecordCommand.resolve other otherLabel).onEntry ((RecordCommand.resolve entity label).onEntry entry) } := by
  refine (resolve_refresh _ other otherLabel).trans (congrArg refresh ?_)
  rw [List.map_map]
  rfl

theorem resolve_comm (h : entity ≠ other) (record : MergeRecord) (label otherLabel : String) :
    (record.resolve entity label).resolve other otherLabel =
      (record.resolve other otherLabel).resolve entity label := by
  simp only [resolve_resolve, onEntry_comm h]

theorem resolve_overruled (record : MergeRecord) (entity label later : String) :
    (record.resolve entity label).resolve entity later = record.resolve entity later := by
  rw [resolve_resolve, resolve]
  simp only [onEntry_onEntry]
  rfl

/-! ## Sequences that amount to the same -/

/-- Two neighbours on different entities change places, or of two on one entity the first is left out, which may be the
same decision made twice. -/
inductive Rearranges : List (String × String) → List (String × String) → Prop
  | swap {entity other : String} (h : entity ≠ other) (label otherLabel : String)
      (before after : List (String × String)) :
      Rearranges (before ++ (entity, label) :: (other, otherLabel) :: after)
        (before ++ (other, otherLabel) :: (entity, label) :: after)
  | overrule (entity label later : String) (before after : List (String × String)) :
      Rearranges (before ++ (entity, label) :: (entity, later) :: after) (before ++ (entity, later) :: after)

theorem run_ofDecisions_append (decisions others : List (String × String)) (record : MergeRecord) :
    run (ofDecisions (decisions ++ others)) record = run (ofDecisions others) (run (ofDecisions decisions) record) := by
  rw [ofDecisions, List.map_append]
  exact List.foldl_append

theorem run_ofDecisions_cons (entity label : String) (decisions : List (String × String)) (record : MergeRecord) :
    run (ofDecisions ((entity, label) :: decisions)) record =
      run (ofDecisions decisions) (record.resolve entity label) :=
  rfl

theorem Rearranges.run_eq (h : Rearranges decisions others) (record : MergeRecord) :
    run (ofDecisions decisions) record = run (ofDecisions others) record := by
  cases h with
  | swap hne label otherLabel before after =>
      simp only [run_ofDecisions_append, run_ofDecisions_cons, resolve_comm hne]
  | overrule entity label later before after =>
      simp only [run_ofDecisions_append, run_ofDecisions_cons, resolve_overruled]

theorem run_eq_of_eqvGen (h : Relation.EqvGen Rearranges decisions others) (record : MergeRecord) :
    run (ofDecisions decisions) record = run (ofDecisions others) record := by
  induction h with
  | rel _ _ hstep => exact hstep.run_eq record
  | refl _ => rfl
  | symm _ _ _ ih => exact ih.symm
  | trans _ _ _ _ _ ih ih' => exact ih.trans ih'

/-! ## What decisions leave -/

theorem exists_lastLabel (h : entity ∈ decisions.map (·.1)) : ∃ label, lastLabel decisions entity = some label := by
  rw [← Option.isSome_iff_exists, lastLabel, List.lookup_isSome_iff]
  obtain ⟨decision, hmem, rfl⟩ := List.mem_map.mp h
  exact ⟨decision, List.mem_reverse.mpr hmem, beq_self_eq_true _⟩

theorem getElem?_run_decisions {place : Nat} (h : record.entries[place]? = some entry) :
    (run (ofDecisions decisions) record).entries[place]? = some (follow (ofDecisions decisions) entry) := by
  rw [entries_run_decisions, List.getElem?_map, h, Option.map_some]

theorem follow_of_notMem (h : entry.entity ∉ decisions.map (·.1)) : follow (ofDecisions decisions) entry = entry := by
  rw [follow_ofDecisions, if_neg h]

theorem resolved_follow (decisions : List (String × String)) (entry : Entry) :
    (follow (ofDecisions decisions) entry).resolved = (entry.resolved || entry.entity ∈ decisions.map (·.1)) := by
  by_cases hmem : entry.entity ∈ decisions.map (·.1)
  · rw [follow_ofDecisions, if_pos hmem]
    simp [hmem]
  · rw [follow_of_notMem hmem]
    simp [hmem]

/-- The entries that stay open are those that no decision is about. -/
theorem unresolved_run_decisions (decisions : List (String × String)) (record : MergeRecord) :
    (run (ofDecisions decisions) record).unresolved =
      record.unresolved.filter (·.entity ∉ decisions.map (·.1)) := by
  have hopen : ((!·.resolved) ∘ follow (ofDecisions decisions)) =
      fun entry => (entry.entity ∉ decisions.map (·.1) : Bool) && !entry.resolved :=
    funext fun entry => by simp [resolved_follow, Bool.and_comm]
  rw [unresolved, entries_run_decisions, List.filter_map, hopen, unresolved, List.filter_filter]
  refine (List.map_congr_left fun entry hmem => ?_).trans (List.map_id _)
  have hkept := (Bool.and_eq_true_iff.mp (List.mem_filter.mp hmem).2).1
  exact follow_of_notMem (of_decide_eq_true hkept)

/-- What is expected of a record after decisions: every entry stands where it stood, as it was, or resolved under the
label of the last decision on its entity. -/
structure IsDecidedBy (decisions : List (String × String)) (record after : MergeRecord) : Prop where
  toOptions_eq : after.toOptions = record.toOptions
  length_eq : after.entries.length = record.entries.length
  untouched (place : Nat) (entry : Entry) : record.entries[place]? = some entry →
    entry.entity ∉ decisions.map (·.1) → after.entries[place]? = some entry
  decided (place : Nat) (entry : Entry) : record.entries[place]? = some entry →
    entry.entity ∈ decisions.map (·.1) → ∃ label, lastLabel decisions entry.entity = some label ∧
      after.entries[place]? = some { entry with resolved := true, label := some label }
  unresolved_eq : after.unresolved = record.unresolved.filter (·.entity ∉ decisions.map (·.1))

theorem isDecidedBy_run (decisions : List (String × String)) (record : MergeRecord) :
    IsDecidedBy decisions record (run (ofDecisions decisions) record) where
  toOptions_eq := toOptions_run _ record
  length_eq := by rw [entries_run_decisions, List.length_map]
  untouched place entry hentry hmem := by rw [getElem?_run_decisions hentry, follow_of_notMem hmem]
  decided place entry hentry hmem := by
    obtain ⟨label, hlast⟩ := exists_lastLabel hmem
    refine ⟨label, hlast, ?_⟩
    rw [getElem?_run_decisions hentry, follow_ofDecisions, if_pos hmem, hlast]
  unresolved_eq := unresolved_run_decisions decisions record

/-- Whatever a record is like, decisions resolve the entries of their entities under the labels given last, and no
entry that was resolved is open again. Rearranged decisions leave the very same record. -/
theorem run_by_last_decisions (record : MergeRecord) :
    (∀ decisions, IsDecidedBy decisions record (run (ofDecisions decisions) record)) ∧
      (∀ decisions others, Relation.EqvGen Rearranges decisions others →
        run (ofDecisions decisions) record = run (ofDecisions others) record) ∧
      ∀ decisions further, (run (ofDecisions (decisions ++ further)) record).unresolved.Sublist
        (run (ofDecisions decisions) record).unresolved := by
  refine ⟨fun decisions => isDecidedBy_run decisions record, fun _ _ h => run_eq_of_eqvGen h record,
    fun decisions further => ?_⟩
  rw [run_ofDecisions_append, unresolved_run_decisions]
  exact List.filter_sublist

/-- Two entries are about one entity, which is decided twice, the entry of another one is resolved already, and nothing
is known of a third. -/
theorem run_by_last_decisions_of_shared_entity :
    let record : MergeRecord := { startedAt := 0, status := .conflicted, entries := [{ entity := "posts:a" },
      { entity := "posts:b", resolved := true, label := some "rule" }, { entity := "posts:a", fields := ["title"] }] }
    let decisions := [("posts:a", "ours"), ("posts:b", "theirs"), ("posts:a", "latest"), ("posts:x", "ours")]
    let others := [("posts:b", "theirs"), ("posts:a", "latest"), ("posts:x", "ours")]
    Relation.EqvGen Rearranges decisions others ∧
      run (ofDecisions decisions) record = run (ofDecisions others) record ∧
      (run (ofDecisions decisions) record).entries[2]? =
        some { entity := "posts:a", fields := ["title"], resolved := true, label := some "latest" } ∧
      (run (ofDecisions decisions) record).unresolved = [] := by
  intro record decisions others
  have hrearranged : Relation.EqvGen Rearranges decisions others :=
    .trans _ _ _ (.rel _ _ (.swap (by decide) "ours" "theirs" [] _))
      (.rel _ _ (.overrule "posts:a" "ours" "latest" [("posts:b", "theirs")] _))
  obtain ⟨hdecided, hsame, -⟩ := run_by_last_decisions record
  obtain ⟨label, hlast, hentry⟩ := (hdecided decisions).decided 2 _ rfl (by decide)
  have hlatest : lastLabel decisions "posts:a" = some "latest" := by decide
  cases hlatest.symm.trans hlast
  exact ⟨hrearranged, hsame decisions others hrearranged, hentry, (hdecided decisions).unresolved_eq.trans (by decide)⟩

end VersionControl.MergeRecord
