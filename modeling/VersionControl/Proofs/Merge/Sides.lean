import VersionControl.Proofs.Merge.Latest
import VersionControl.Proofs.Merge.Outcome

/-!
# The sides of a conflict in the merged stream

A reported conflict tells the latest change of either side. Ours is always in the merged stream. Theirs is left out
exactly if it creates what ours created before and has deleted since.
-/

namespace VersionControl.Merge

open Change (IsLatest)
open Analysis (Stateless)

variable {ours theirs : List Change} {change : Change}

/-- A change that is none of ours creates what one of ours creates. -/
def IsRecreation (ours : List Change) (change : Change) : Prop :=
  change.kind.isCreate ∧ change ∉ ours ∧
    ∃ mine ∈ ours, mine.kind = change.kind ∧ mine.target = change.target

instance (ours : List Change) (change : Change) : Decidable (IsRecreation ours change) :=
  inferInstanceAs (Decidable (_ ∧ _))

theorem isDelete_of_isCreate {kind : Change.Kind} (h : kind.isCreate = true) : kind.isDelete = false := by
  cases kind with
  | create | relate => rfl
  | update | delete | unrelate => cases h

/-- What shares the identifier of a change of ours is that change, so only a creation is ever left out. -/
theorem Identified.isRepeated_iff (h : Identified (ours ++ theirs)) (hmem : change ∈ theirs)
    (hother : change ∉ ours) : IsRepeated ours change ↔ IsRecreation ours change := by
  constructor
  · rintro (⟨-, mine, hmine, hid⟩ | ⟨hcreate, hmine⟩)
    · have hsame : mine = change :=
        h.2 mine (List.mem_append_left _ hmine) change (List.mem_append_right _ hmem) hid
      exact absurd (hsame ▸ hmine) hother
    · exact ⟨hcreate, hother, hmine⟩
  · rintro ⟨hcreate, -, hmine⟩
    exact .inr ⟨hcreate, hmine⟩

section Library

variable [ValueLibrary] {options : Options} {conflict : Conflict}

theorem mem_changes (hours : ∀ c ∈ ours, c.kind.isCreate → c.after = none)
    (htheirs : ∀ c ∈ theirs, c.kind.isCreate → c.after = none) :
    change ∈ (streams ours theirs options).changes ↔
      change ∈ ours ∨ change ∈ theirs ∧ ¬ IsRepeated ours change := by
  rw [changes_eq, Change.mem_sort, union_eq hours htheirs, List.mem_append, mem_additions]

/-- Without after-states the sides of a reported conflict are the latest changes of its target, and one of them is
a deletion. -/
theorem sides_of_mem_conflicts (h : Stateless ours theirs)
    (hmem : conflict ∈ (streams ours theirs options).conflicts) :
    IsLatest conflict.ourChange ours ∧ IsLatest conflict.theirChange theirs ∧
      conflict.ourChange.kind.isDelete ≠ conflict.theirChange.kind.isDelete := by
  have hfound : conflict.unflagged ∈ (Analysis.ofStreams ours theirs).conflicts :=
    map_unflagged_conflicts ours theirs options ▸ List.mem_map_of_mem hmem
  obtain ⟨mine, last, -, hmine, hlast, hne, heq⟩ := (Analysis.mem_conflicts_iff_of_stateless h).1 hfound
  have hours : conflict.ourChange = mine := congrArg Conflict.ourChange heq
  have htheirs : conflict.theirChange = last := congrArg Conflict.theirChange heq
  rw [hours, htheirs]
  exact ⟨hmine, hlast, hne⟩

/-- The merged stream holds our side of each reported conflict, and theirs unless it creates again what ours has
deleted. -/
theorem sides_mem_changes_iff (ours theirs : List Change) (options : Options)
    (hafter : ∀ c ∈ ours ++ theirs, c.after = none) (hid : Identified (ours ++ theirs)) :
    ∀ conflict ∈ (streams ours theirs options).conflicts,
      conflict.ourChange ∈ (streams ours theirs options).changes ∧
        (conflict.theirChange ∈ (streams ours theirs options).changes ↔
          ¬ IsRecreation ours conflict.theirChange) ∧
        (IsRecreation ours conflict.theirChange → conflict.ourChange.kind.isDelete) := by
  intro conflict hmem
  have hours : ∀ c ∈ ours, c.after = none := fun c hc => hafter c (List.mem_append_left _ hc)
  have htheirs : ∀ c ∈ theirs, c.after = none := fun c hc => hafter c (List.mem_append_right _ hc)
  obtain ⟨hmine, hlast, hne⟩ := sides_of_mem_conflicts (Analysis.stateless_of_after hours htheirs) hmem
  have hchanges (change : Change) : change ∈ (streams ours theirs options).changes ↔
      change ∈ ours ∨ change ∈ theirs ∧ ¬ IsRepeated ours change :=
    mem_changes (fun c hc _ => hours c hc) (fun c hc _ => htheirs c hc)
  refine ⟨(hchanges _).2 (.inl hmine.mem), ?_, ?_⟩
  · rw [hchanges]
    by_cases hmem : conflict.theirChange ∈ ours
    · exact iff_of_true (.inl hmem) fun hrecreation => hrecreation.2.1 hmem
    · rw [hid.isRepeated_iff hlast.mem hmem]
      exact ⟨fun h => (h.resolve_left hmem).2, fun h => .inr ⟨hlast.mem, h⟩⟩
  · rintro ⟨hcreate, -⟩
    rw [isDelete_of_isCreate hcreate] at hne
    exact eq_true_of_ne_false hne

end Library

/-- Of two deletions one meets a creation of the other side: ours is answered by a second creation, which is left
out, and theirs by an update. -/
theorem sides_mem_changes_of_two_deletions :
    let ours : List Change := [{ id := "o1", time := 1, target := "posts:a" },
      { id := "o2", time := 4, kind := .delete, target := "posts:a" },
      { id := "o3", time := 2, kind := .update, target := "posts:b" }]
    let theirs : List Change := [{ id := "t1", time := 6, target := "posts:a" },
      { id := "t2", time := 3, kind := .delete, target := "posts:b" }]
    (∀ c ∈ ours ++ theirs, c.after = none) ∧ Identified (ours ++ theirs) ∧
      (streams ours theirs).conflicts.map (·.target) = ["posts:a", "posts:b"] ∧
      ∀ conflict ∈ (streams ours theirs).conflicts,
        conflict.ourChange ∈ (streams ours theirs).changes ∧
          (conflict.theirChange ∈ (streams ours theirs).changes ↔ conflict.target = "posts:b") := by
  intro ours theirs
  have hafter : ∀ c ∈ ours ++ theirs, c.after = none := by decide
  have hid : Identified (ours ++ theirs) := ⟨by decide, by decide⟩
  refine ⟨hafter, hid, by decide, fun conflict hmem => ?_⟩
  obtain ⟨hours, htheirs, -⟩ := sides_mem_changes_iff ours theirs {} hafter hid conflict hmem
  have hrecreation : ∀ conflict ∈ (streams ours theirs).conflicts,
      ¬ IsRecreation ours conflict.theirChange ↔ conflict.target = "posts:b" := by
    decide
  exact ⟨hours, htheirs.trans (hrecreation conflict hmem)⟩

/-- The conflict of our deletion with their second creation tells a change that the merged stream does not hold. -/
theorem not_mem_changes_of_recreation :
    let ours : List Change := [{ id := "o1", time := 1, target := "posts:p" },
      { id := "o2", time := 2, kind := .delete, target := "posts:p" }]
    let theirs : List Change := [{ id := "t1", time := 3, target := "posts:p" }]
    (∀ c ∈ ours ++ theirs, c.after = none) ∧ Identified (ours ++ theirs) ∧
      ∃ conflict ∈ (streams ours theirs).conflicts,
        conflict.theirChange ∉ (streams ours theirs).changes := by
  intro ours theirs
  have hconflict : Analysis.deletion { id := "o2", time := 2, kind := .delete, target := "posts:p" }
      { id := "t1", time := 3, target := "posts:p" } ∈ (streams ours theirs).conflicts := by decide
  refine ⟨by decide, ⟨by decide, by decide⟩, _, hconflict, ?_⟩
  rw [mem_changes (by decide) (by decide)]
  decide

end VersionControl.Merge
