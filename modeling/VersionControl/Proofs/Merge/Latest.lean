import Mathlib.Data.List.Basic
import VersionControl.Proofs.Change.Latest
import VersionControl.Proofs.Merge.Union

/-!
# The latest change after a merge

The latest change of a target in the merged stream is the latest one of ours or of theirs, unless theirs is
left out as a repetition while an addition of theirs, superseded on their side, is not earlier than ours.
-/

namespace VersionControl.Merge

open Change (latestOn? newer IsLatest)

variable {ours theirs : List Change} {change : Change} {target : String}

theorem mem_additions : change ∈ additions ours theirs ↔ change ∈ theirs ∧ ¬ IsRepeated ours change := by
  simp [additions]

/-- A change that is latest among all of theirs stays latest among their additions if it is one. -/
theorem isLatest_additions (h : IsLatest change theirs) (hnew : ¬ IsRepeated ours change) :
    IsLatest change (additions ours theirs) where
  greatest c hc := h.greatest c (mem_additions.1 hc).1
  last := by
    obtain ⟨before, hbefore⟩ := List.getLast?_eq_some_iff.1 h.last
    rw [additions, List.filter_comm, hbefore]
    simp [List.filter_append, hnew]

theorem latestOn?_changes [ValueLibrary] (options : Options) (hours : ∀ c ∈ ours, c.kind.isCreate → c.after = none)
    (htheirs : ∀ c ∈ theirs, c.kind.isCreate → c.after = none) (target : String) :
    latestOn? target (streams ours theirs options).changes =
      (latestOn? target ours).merge newer (latestOn? target (additions ours theirs)) := by
  rw [changes_eq, Change.latestOn?_sort, union_eq hours htheirs, Change.latestOn?_append]

/-! ## Identified changes -/

/-- Every change has an identifier, which no other change has. -/
def Identified (changes : List Change) : Prop :=
  (∀ c ∈ changes, c.id ≠ "") ∧ ∀ a ∈ changes, ∀ b ∈ changes, a.id = b.id → a = b

theorem Identified.isRepeated_of_mem (h : Identified (ours ++ theirs)) (hmem : change ∈ ours) :
    IsRepeated ours change :=
  .inl ⟨h.1 change (List.mem_append_left _ hmem), change, hmem, rfl⟩

/-- What repeats a change of ours is about a target of ours. -/
theorem Identified.exists_target_of_isRepeated (h : Identified (ours ++ theirs)) (hmem : change ∈ theirs)
    (hrepeated : IsRepeated ours change) : ∃ mine ∈ ours, mine.target = change.target := by
  rcases hrepeated with ⟨-, mine, hmine, hid⟩ | ⟨-, mine, hmine, -, htarget⟩
  · have hsame : mine = change :=
      h.2 mine (List.mem_append_left _ hmine) change (List.mem_append_right _ hmem) hid
    exact ⟨mine, hmine, congrArg Change.target hsame⟩
  · exact ⟨mine, hmine, htarget⟩

/-- On a target that ours does not touch every change of theirs is an addition. -/
theorem Identified.latestOn?_additions_of_none (h : Identified (ours ++ theirs))
    (hours : latestOn? target ours = none) :
    latestOn? target (additions ours theirs) = latestOn? target theirs := by
  have hnew (c : Change) (hc : c ∈ theirs) (htarget : c.target = target) : ¬ IsRepeated ours c := by
    intro hrepeated
    obtain ⟨mine, hmine, hmineTarget⟩ := h.exists_target_of_isRepeated hc hrepeated
    exact Change.latestOn?_eq_none_iff.1 hours mine hmine (hmineTarget.trans htarget)
  cases hlatest : latestOn? target theirs with
  | none =>
      rw [Change.latestOn?_eq_none_iff] at hlatest ⊢
      exact fun c hc => hlatest c (mem_additions.1 hc).1
  | some last =>
      obtain ⟨htarget, hlast⟩ := Change.latestOn?_eq_some_iff.1 hlatest
      exact Change.latestOn?_eq_some_iff.2 ⟨htarget, isLatest_additions hlast (hnew last hlast.mem htarget)⟩

/-- The latest change of a target in the merged stream is the latest one of a side if and only if, where
theirs is left out as a repetition, so is every change of theirs that is not earlier than the latest of
ours. -/
theorem latestOn?_changes_iff [ValueLibrary] (ours theirs : List Change) (options : Options) (target : String)
    (hafter : ∀ c ∈ ours ++ theirs, c.after = none) (hid : Identified (ours ++ theirs)) :
    (latestOn? target (streams ours theirs options).changes = latestOn? target ours ∨
        latestOn? target (streams ours theirs options).changes = latestOn? target theirs) ↔
      ∀ mine last, latestOn? target ours = some mine → latestOn? target theirs = some last →
        IsRepeated ours last →
        ∀ c ∈ theirs, c.target = target → mine.time ≤ c.time → IsRepeated ours c := by
  rw [latestOn?_changes options (fun c hc _ => hafter c (List.mem_append_left _ hc))
    (fun c hc _ => hafter c (List.mem_append_right _ hc))]
  cases hours : latestOn? target ours with
  | none => simp [hid.latestOn?_additions_of_none hours]
  | some mine =>
      obtain ⟨-, hmine⟩ := Change.latestOn?_eq_some_iff.1 hours
      cases hadded : latestOn? target (additions ours theirs) with
      | none =>
          rw [Change.latestOn?_eq_none_iff] at hadded
          simp only [Option.merge_none_right, true_or, true_iff]
          rintro mine' last - - - c hc htarget -
          by_contra hnew
          exact hadded c (mem_additions.2 ⟨hc, hnew⟩) htarget
      | some added =>
          obtain ⟨haddedTarget, haddedLatest⟩ := Change.latestOn?_eq_some_iff.1 hadded
          obtain ⟨haddedMem, haddedNew⟩ := mem_additions.1 haddedLatest.mem
          rw [Option.merge_some_some, newer]
          by_cases hle : mine.time ≤ added.time
          · -- The merged stream ends in an addition, which is none of our changes.
            have hne : added ≠ mine := fun h => haddedNew (hid.isRepeated_of_mem (h ▸ hmine.mem))
            rw [if_pos hle]
            constructor
            · rintro (h | h) mine' last hmine' hlast hrepeated
              · exact absurd (Option.some.inj h) hne
              · exact absurd (Option.some.inj (h.trans hlast) ▸ hrepeated) haddedNew
            · intro hall
              right
              cases hlast : latestOn? target theirs with
              | none => exact absurd haddedTarget (Change.latestOn?_eq_none_iff.1 hlast added haddedMem)
              | some last =>
                  obtain ⟨hlastTarget, hlastLatest⟩ := Change.latestOn?_eq_some_iff.1 hlast
                  have hnew : ¬ IsRepeated ours last := fun hrepeated =>
                    haddedNew (hall mine last rfl hlast hrepeated added haddedMem haddedTarget hle)
                  have hsame : added = last := haddedLatest.eq (isLatest_additions hlastLatest hnew)
                    (haddedTarget.trans hlastTarget.symm)
                  rw [hsame]
          · -- Every addition is earlier than our latest change.
            rw [if_neg hle]
            simp only [true_or, true_iff]
            rintro mine' last hmine' - - c hc htarget hc'
            obtain rfl : mine = mine' := Option.some.inj hmine'
            by_contra hnew
            have := haddedLatest.greatest c (mem_additions.2 ⟨hc, hnew⟩) (htarget.trans haddedTarget.symm)
            omega

/-- Theirs deletes an entity and creates it again, which repeats the creation of ours, but the deletion is
earlier than the latest change of ours. -/
theorem latestOn?_changes_of_later_update :
    let ours : List Change := [{ id := "o1", time := 1, target := "posts:p" },
      { id := "o2", time := 5, kind := .update, target := "posts:p" }]
    let theirs : List Change := [{ id := "t1", time := 2, kind := .delete, target := "posts:p" },
      { id := "t2", time := 3, target := "posts:p" }]
    (∀ c ∈ ours ++ theirs, c.after = none) ∧ Identified (ours ++ theirs) ∧
      (latestOn? "posts:p" (streams ours theirs).changes = latestOn? "posts:p" ours ∨
        latestOn? "posts:p" (streams ours theirs).changes = latestOn? "posts:p" theirs) := by
  intro ours theirs
  have hafter : ∀ c ∈ ours ++ theirs, c.after = none := by decide
  have hid : Identified (ours ++ theirs) := ⟨by decide, by decide⟩
  refine ⟨hafter, hid, (latestOn?_changes_iff ours theirs {} "posts:p" hafter hid).2 ?_⟩
  intro mine last hmine hlast _ c hc _ htime
  obtain rfl : mine = { id := "o2", time := 5, kind := .update, target := "posts:p" } :=
    Option.some.inj (hmine.symm.trans (by decide))
  have hearlier : ∀ c ∈ theirs, c.time < 5 := by decide
  exact absurd htime (Int.not_le.2 (hearlier c hc))

/-- With nothing after the creation of ours the deletion becomes the latest change, although both sides agree
that the entity exists. -/
theorem latestOn?_changes_of_deletion_superseded :
    let ours : List Change := [{ id := "o1", time := 1, target := "posts:p" }]
    let theirs : List Change := [{ id := "t1", time := 2, kind := .delete, target := "posts:p" },
      { id := "t2", time := 3, target := "posts:p" }]
    (∀ c ∈ ours ++ theirs, c.after = none) ∧ Identified (ours ++ theirs) ∧
      (streams ours theirs).conflicts = [] ∧
      ¬ (latestOn? "posts:p" (streams ours theirs).changes = latestOn? "posts:p" ours ∨
        latestOn? "posts:p" (streams ours theirs).changes = latestOn? "posts:p" theirs) := by
  intro ours theirs
  refine ⟨by decide, ⟨by decide, by decide⟩, by decide, ?_⟩
  rw [latestOn?_changes {} (by decide) (by decide)]
  decide

end VersionControl.Merge
