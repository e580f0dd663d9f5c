import VersionControl.Proofs.Conflict.Detection

/-!
# Conflicts with deletions

Where the latest changes carry no after-states there is nothing to compare, and a target is in conflict if one
side deletes it and the other does not.
-/

namespace VersionControl.Analysis

open Change (latestOn? IsLatest targets)

variable {ours theirs : List Change} {target : String} {mine last : Change} {conflict : Conflict}

/-- Both sides touch the target, and exactly one of them leaves it deleted. -/
def DeletedOnOneSide (ours theirs : List Change) (target : String) : Prop :=
  ∃ mine last, mine.target = target ∧ last.target = target ∧ IsLatest mine ours ∧ IsLatest last theirs ∧
    mine.kind.isDelete ≠ last.kind.isDelete

theorem deletedOnOneSide_iff : DeletedOnOneSide ours theirs target ↔
    ∃ mine ∈ latestOn? target ours, ∃ last ∈ latestOn? target theirs,
      mine.kind.isDelete ≠ last.kind.isDelete := by
  simp only [Option.mem_def, Change.latestOn?_eq_some_iff]
  constructor
  · rintro ⟨mine, last, hmine, hlast, hours, htheirs, hne⟩
    exact ⟨mine, ⟨hmine, hours⟩, last, ⟨hlast, htheirs⟩, hne⟩
  · rintro ⟨mine, ⟨hmine, hours⟩, last, ⟨hlast, htheirs⟩, hne⟩
    exact ⟨mine, last, hmine, hlast, hours, htheirs, hne⟩

instance (ours theirs : List Change) (target : String) : Decidable (DeletedOnOneSide ours theirs target) :=
  decidable_of_iff _ deletedOnOneSide_iff.symm

/-- No latest change of a target of both sides has an after-state to compare, unless it is a deletion. -/
def Stateless (ours theirs : List Change) : Prop :=
  ∀ mine last, mine.target = last.target → IsLatest mine ours → IsLatest last theirs →
    (mine.kind.isDelete = false → mine.after = none) ∧ (last.kind.isDelete = false → last.after = none)

theorem stateless_of_after (hours : ∀ c ∈ ours, c.after = none) (htheirs : ∀ c ∈ theirs, c.after = none) :
    Stateless ours theirs :=
  fun mine last _ hmine hlast => ⟨fun _ => hours mine hmine.mem, fun _ => htheirs last hlast.mem⟩

/-- The conflict of a deletion with another change, of which nothing is compared. -/
def deletion (mine last : Change) : Conflict where
  kind := .deleteUpdate
  target := mine.target
  field := none
  ours := none
  theirs := none
  base := mine.before.or last.before
  ourChange := mine
  theirChange := last
  resolved := none

section Library

variable [ValueLibrary]

theorem state_eq_none {change : Change} (h : change.after = none) : change.state = none := by
  rw [Change.state, h, Option.map_none]

theorem remaining_eq_none {change : Change} (h : change.kind.isDelete = false → change.after = none) :
    remaining change = none := by
  rw [remaining]
  split
  case isTrue => rfl
  case isFalse hdelete => exact state_eq_none (h (Bool.eq_false_iff.2 hdelete))

theorem ofWholes_eq (kind : Conflict.Kind) (hmine : mine.after = none) (hlast : last.after = none) :
    ofWholes kind mine last = {} := by
  rw [ofWholes, state_eq_none hmine, state_eq_none hlast]
  rfl

theorem ofUpdates_eq (hmine : mine.after = none) (hlast : last.after = none) : ofUpdates mine last = {} := by
  rw [ofUpdates, state_eq_none hmine]
  exact ofWholes_eq _ hmine hlast

theorem between_eq (hmine : mine.kind.isDelete = false → mine.after = none)
    (hlast : last.kind.isDelete = false → last.after = none) :
    between mine last =
      if mine.kind.isDelete = last.kind.isDelete then {} else { conflicts := [deletion mine last] } := by
  rw [between, remaining_eq_none hmine, remaining_eq_none hlast]
  cases hm : mine.kind.isDelete with
  | true => cases last.kind.isDelete <;> rfl
  | false =>
      cases hl : last.kind.isDelete with
      | true => rfl
      | false =>
          rw [ofWholes_eq _ (hmine hm) (hlast hl), ofUpdates_eq (hmine hm) (hlast hl)]
          exact ite_self _

theorem onTarget_eq_of_stateless (h : Stateless ours theirs) (target : String) :
    (onTarget ours theirs target).commuting = [] ∧
      (onTarget ours theirs target).conflicts.map (·.target) =
        if DeletedOnOneSide ours theirs target then [target] else [] := by
  simp only [deletedOnOneSide_iff, onTarget]
  cases hours : latestOn? target ours with
  | none => simp
  | some mine =>
      cases htheirs : latestOn? target theirs with
      | none => simp
      | some last =>
          obtain ⟨hmine, hmineLatest⟩ := Change.latestOn?_eq_some_iff.1 hours
          obtain ⟨hlast, hlastLatest⟩ := Change.latestOn?_eq_some_iff.1 htheirs
          obtain ⟨hmineState, hlastState⟩ := h mine last (hmine.trans hlast.symm) hmineLatest hlastLatest
          by_cases hsame : mine.kind.isDelete = last.kind.isDelete
          · simp [between_eq hmineState hlastState, hsame]
          · simp [between_eq hmineState hlastState, hsame, deletion, hmine]

/-- Where nothing is compared no field is found that commutes. -/
theorem commuting_of_stateless (h : Stateless ours theirs) : (ofStreams ours theirs).commuting = [] := by
  rw [commuting_eq, List.flatMap_eq_nil_iff]
  exact fun target _ => (onTarget_eq_of_stateless h target).1

theorem map_target_conflicts (h : Stateless ours theirs) : (ofStreams ours theirs).conflicts.map (·.target) =
    (targets ours).filter (DeletedOnOneSide ours theirs ·) := by
  rw [conflicts_eq, List.map_flatMap]
  simp only [(onTarget_eq_of_stateless h _).2]
  induction targets ours with
  | nil => rfl
  | cons target rest ih =>
      rw [List.flatMap_cons, ih]
      by_cases hdeleted : DeletedOnOneSide ours theirs target <;> simp [hdeleted]

theorem mem_conflicts_iff_of_stateless (h : Stateless ours theirs) :
    conflict ∈ (ofStreams ours theirs).conflicts ↔
      ∃ mine last, mine.target = last.target ∧ IsLatest mine ours ∧ IsLatest last theirs ∧
        mine.kind.isDelete ≠ last.kind.isDelete ∧ conflict = deletion mine last := by
  rw [mem_conflicts_iff]
  refine exists₂_congr fun mine last => and_congr_right fun htarget => and_congr_right fun hours =>
    and_congr_right fun htheirs => ?_
  obtain ⟨hmine, hlast⟩ := h mine last htarget hours htheirs
  rw [between_eq hmine hlast]
  by_cases hsame : mine.kind.isDelete = last.kind.isDelete <;> simp [hsame]

/-- Where nothing is compared no target is in two conflicts. -/
theorem nodup_target_conflicts (h : Stateless ours theirs) :
    ((ofStreams ours theirs).conflicts.map (·.target)).Nodup := by
  rw [map_target_conflicts h]
  exact (Change.nodup_targets ours).filter _

/-- In the order in which our stream comes to its targets there is one conflict for each that one side alone
deletes, and no other. It tells both latest changes and what the entity was before them. -/
theorem conflicts_of_stateless (ours theirs : List Change) (h : Stateless ours theirs) :
    (ofStreams ours theirs).conflicts.map (·.target) =
        (targets ours).filter (DeletedOnOneSide ours theirs ·) ∧
      ∀ conflict ∈ (ofStreams ours theirs).conflicts, ∃ mine last,
        mine.target = conflict.target ∧ last.target = conflict.target ∧ IsLatest mine ours ∧
          IsLatest last theirs ∧ conflict = deletion mine last := by
  refine ⟨map_target_conflicts h, fun conflict hmem => ?_⟩
  obtain ⟨mine, last, htarget, hours, htheirs, -, rfl⟩ := (mem_conflicts_iff_of_stateless h).1 hmem
  exact ⟨mine, last, rfl, htarget.symm, hours, htheirs, rfl⟩

end Library

/-- Of two changes of one time the later in the stream counts, and what the superseded one carries does not. A
target that both sides delete is in no conflict. -/
theorem conflicts_of_deletion_among_equals :
    let ours : List Change := [
      { id := "o1", time := 4, kind := .update, target := "posts:b", after := some ⟨"superseded"⟩ },
      { id := "o2", time := 3, kind := .unrelate, target := "posts:a" },
      { id := "o3", time := 4, kind := .delete, target := "posts:b" },
      { id := "o4", time := 1, kind := .delete, target := "posts:c" }]
    let theirs : List Change := [
      { id := "t1", time := 9, kind := .delete, target := "posts:c" },
      { id := "t2", time := 1, kind := .update, target := "posts:b", before := some ⟨"state"⟩ },
      { id := "t3", time := 2, target := "posts:a" }]
    Stateless ours theirs ∧
      (ofStreams ours theirs).conflicts.map (·.target) = ["posts:b", "posts:a"] ∧
      ∀ conflict ∈ (ofStreams ours theirs).conflicts, ∃ mine last,
        mine.target = conflict.target ∧ last.target = conflict.target ∧ IsLatest mine ours ∧
          IsLatest last theirs ∧ conflict = deletion mine last := by
  intro ours theirs
  have hstateless : Stateless ours theirs := by
    intro mine last htarget hours htheirs
    have hall : ∀ mine ∈ ours, ∀ last ∈ theirs, latestOn? mine.target ours = some mine →
        (mine.kind.isDelete = false → mine.after = none) ∧
          (last.kind.isDelete = false → last.after = none) := by
      decide
    exact hall mine hours.mem last htheirs.mem (Change.latestOn?_eq_some_iff.2 ⟨rfl, hours⟩)
  obtain ⟨htargets, hconflicts⟩ := conflicts_of_stateless ours theirs hstateless
  exact ⟨hstateless, htargets.trans (by decide), hconflicts⟩

end VersionControl.Analysis
