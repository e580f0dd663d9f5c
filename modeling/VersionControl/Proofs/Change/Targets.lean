import Mathlib.Data.List.Nodup
import VersionControl.Proofs.Change.Latest

/-!
# The targets of a stream

A stream has each of its targets once, in the order in which they first appear. Its latest changes are one for
each target, in that order.
-/

namespace VersionControl.Change

variable {change : Change} {changes : List Change}

theorem targets_concat (changes : List Change) (next : Change) :
    targets (changes ++ [next]) =
      if next.target ∈ targets changes then targets changes else targets changes ++ [next.target] := by
  simp only [targets, List.map_append, List.map_cons, List.map_nil, List.eraseDups_append,
    List.mem_eraseDups, List.removeAll]
  by_cases h : next.target ∈ changes.map (·.target)
  · rw [if_pos h, List.filter_cons_of_neg (by simpa using h)]
    simp
  · rw [if_neg h, List.filter_cons_of_pos (by simpa using h)]
    simp [List.eraseDups_cons]

theorem nodup_eraseDups (texts : List String) : texts.eraseDups.Nodup := by
  induction texts using List.reverseRecOn with
  | nil => simp
  | append_singleton texts text ih =>
      rw [List.eraseDups_append]
      by_cases h : text ∈ texts
      · simpa [List.removeAll, h] using ih
      · have hnew : text ∉ texts.eraseDups := fun hmem => h (List.mem_eraseDups.1 hmem)
        simpa [List.removeAll, h, List.eraseDups_cons] using ih.concat hnew

/-- How many different texts there are does not depend on their order. -/
theorem length_eraseDups_of_perm {texts others : List String} (h : texts.Perm others) :
    texts.eraseDups.length = others.eraseDups.length := by
  have hperm : texts.eraseDups.Perm others.eraseDups :=
    (List.perm_ext_iff_of_nodup (nodup_eraseDups texts) (nodup_eraseDups others)).2 fun text => by
      rw [List.mem_eraseDups, List.mem_eraseDups, h.mem_iff]
  exact hperm.length_eq

theorem nodup_targets (changes : List Change) : (targets changes).Nodup := nodup_eraseDups _

theorem mem_targets {target : String} : target ∈ targets changes ↔ ∃ change ∈ changes, change.target = target := by
  rw [targets, List.mem_eraseDups, List.mem_map]

theorem map_target_keepLatest (kept : List Change) (next : Change) :
    (keepLatest kept next).map (·.target) =
      if next.target ∈ kept.map (·.target) then kept.map (·.target)
      else kept.map (·.target) ++ [next.target] := by
  induction kept with
  | nil => simp [keepLatest]
  | cons c rest ih =>
      simp only [keepLatest]
      by_cases hc : c.target = next.target
      · by_cases hle : c.time ≤ next.time <;> simp [hc, hle]
      · simp only [if_neg hc, List.map_cons, ih, List.mem_cons, Ne.symm hc, false_or]
        split <;> simp

/-- The latest changes are one for each target. -/
theorem map_target_latest (changes : List Change) : (latest changes).map (·.target) = targets changes := by
  induction changes using List.reverseRecOn with
  | nil => rfl
  | append_singleton changes next ih =>
      rw [latest_concat, map_target_keepLatest, ih, targets_concat]

theorem latestOn?_of_mem_latest (h : change ∈ latest changes) :
    latestOn? change.target changes = some change := by
  have hnodup : ((latest changes).map (·.target)).Nodup := map_target_latest changes ▸ nodup_targets changes
  cases hfound : latestOn? change.target changes with
  | none => simpa using List.find?_eq_none.1 hfound change h
  | some found =>
      have htarget : found.target = change.target := by simpa using List.find?_some hfound
      rw [List.inj_on_of_nodup_map hnodup (List.mem_of_find?_eq_some hfound) h htarget]

theorem mem_of_mem_latest (h : change ∈ latest changes) : change ∈ changes :=
  (isLatest_of_latestOn? (latestOn?_of_mem_latest h)).2.mem

theorem latest_eq (changes : List Change) :
    latest changes = (targets changes).filterMap fun target => latestOn? target changes := by
  rw [← map_target_latest, List.filterMap_map]
  calc latest changes = (latest changes).filterMap some := List.filterMap_some.symm
    _ = _ := List.filterMap_congr fun change h => (latestOn?_of_mem_latest h).symm

end VersionControl.Change
