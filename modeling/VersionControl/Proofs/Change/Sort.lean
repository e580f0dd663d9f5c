import Mathlib.Data.List.Basic
import VersionControl.Change.Basic

/-!
# Sorting by time

Sorting keeps all changes, puts them in ascending time and leaves those of one time in their order. This
settles the sorted stream, so that sorting a part of a stream first, or sorting what a filter leaves, comes to
the same.
-/

namespace VersionControl.Change

theorem time_le_trans (a b c : Change) (hab : decide (a.time ≤ b.time)) (hbc : decide (b.time ≤ c.time)) :
    decide (a.time ≤ c.time) := by
  simp only [decide_eq_true_eq] at *
  omega

theorem time_le_total (a b : Change) : decide (a.time ≤ b.time) || decide (b.time ≤ a.time) := by
  simp only [Bool.or_eq_true, decide_eq_true_eq]
  omega

theorem sort_perm (changes : List Change) : (sort changes).Perm changes :=
  List.mergeSort_perm changes _

theorem sort_ascending (changes : List Change) : (sort changes).Pairwise (fun a b => a.time ≤ b.time) :=
  (List.pairwise_mergeSort time_le_trans time_le_total changes).imp of_decide_eq_true

/-- Changes of one time are in ascending order already, so they pass through a stable sort as they are. -/
theorem filter_time_sort (time : Int) (changes : List Change) :
    (sort changes).filter (·.time = time) = changes.filter (·.time = time) := by
  have hpair : (changes.filter (·.time = time)).Pairwise (fun a b => decide (a.time ≤ b.time)) := by
    refine List.pairwise_of_forall_mem_list fun a ha b hb => ?_
    simp only [List.mem_filter, decide_eq_true_eq] at ha hb
    simp [ha.2, hb.2]
  have hsub : (changes.filter (·.time = time)).Sublist (sort changes) :=
    List.sublist_mergeSort time_le_trans time_le_total hpair List.filter_sublist
  have hkept := hsub.filter (·.time = time)
  simp only [List.filter_filter, Bool.and_self] at hkept
  exact (hkept.eq_of_length ((sort_perm changes).filter _).length_eq.symm).symm

/-! ## What settles a sorted stream -/

/-- Streams in ascending time are equal if they hold the same at each time. -/
theorem eq_of_filter_time {xs ys : List Change} (hxs : xs.Pairwise (fun a b => a.time ≤ b.time))
    (hys : ys.Pairwise (fun a b => a.time ≤ b.time))
    (h : ∀ time : Int, xs.filter (·.time = time) = ys.filter (·.time = time)) : xs = ys := by
  induction xs generalizing ys with
  | nil =>
      cases ys with
      | nil => rfl
      | cons y ys => simpa using h y.time
  | cons x xs ih =>
      cases ys with
      | nil => simpa using h x.time
      | cons y ys =>
          obtain ⟨hx, hxrest⟩ := List.pairwise_cons.1 hxs
          obtain ⟨hy, hyrest⟩ := List.pairwise_cons.1 hys
          have hmem (c : Change) : c ∈ x :: xs ↔ c ∈ y :: ys := by
            simpa using congrArg (c ∈ ·) (h c.time)
          have htime : x.time = y.time := by
            refine Int.le_antisymm ?_ ?_
            · rcases List.mem_cons.1 ((hmem y).2 List.mem_cons_self) with heq | hmem
              · exact Int.le_of_eq (congrArg time heq.symm)
              · exact hx y hmem
            · rcases List.mem_cons.1 ((hmem x).1 List.mem_cons_self) with heq | hmem
              · exact Int.le_of_eq (congrArg time heq.symm)
              · exact hy x hmem
          have hhead : x = y := by
            have hat := h x.time
            rw [List.filter_cons_of_pos (by simp), List.filter_cons_of_pos (by simp [htime])] at hat
            exact (List.cons.inj hat).1
          subst hhead
          refine congrArg (x :: ·) (ih hxrest hyrest fun time => ?_)
          have hat := h time
          rw [List.filter_cons, List.filter_cons] at hat
          split at hat
          · exact (List.cons.inj hat).2
          · exact hat

theorem sort_congr {xs ys : List Change}
    (h : ∀ time : Int, xs.filter (·.time = time) = ys.filter (·.time = time)) : sort xs = sort ys :=
  eq_of_filter_time (sort_ascending xs) (sort_ascending ys) fun time => by
    rw [filter_time_sort, filter_time_sort, h]

theorem sort_sort (changes : List Change) : sort (sort changes) = sort changes :=
  sort_congr fun time => filter_time_sort time changes

theorem sort_append_left (xs ys : List Change) : sort (sort xs ++ ys) = sort (xs ++ ys) :=
  sort_congr fun time => by rw [List.filter_append, List.filter_append, filter_time_sort]

theorem sort_append_right (xs ys : List Change) : sort (xs ++ sort ys) = sort (xs ++ ys) :=
  sort_congr fun time => by rw [List.filter_append, List.filter_append, filter_time_sort]

theorem filter_sort (p : Change → Bool) (changes : List Change) :
    (sort changes).filter p = sort (changes.filter p) := by
  refine eq_of_filter_time ((sort_ascending changes).filter p) (sort_ascending _) fun time => ?_
  rw [filter_time_sort, List.filter_comm, filter_time_sort, List.filter_comm]

theorem mem_sort {change : Change} {changes : List Change} : change ∈ sort changes ↔ change ∈ changes :=
  (sort_perm changes).mem_iff

/-! ## Stability -/

/-- The changes in ascending time, those of one time in the order that they had. -/
structure IsStablySorted (changes sorted : List Change) : Prop where
  ascending : sorted.Pairwise fun a b => a.time ≤ b.time
  atEachTime : ∀ time : Int, sorted.filter (·.time = time) = changes.filter (·.time = time)

theorem isStablySorted_sort (changes : List Change) : IsStablySorted changes (sort changes) where
  ascending := sort_ascending changes
  atEachTime time := filter_time_sort time changes

theorem IsStablySorted.eq_sort {changes sorted : List Change} (h : IsStablySorted changes sorted) :
    sorted = sort changes :=
  eq_of_filter_time h.ascending (sort_ascending changes) fun time => by rw [h.atEachTime, filter_time_sort]

/-- A stable sort leaves nothing to choose, keeps every change, and may be applied to parts of a stream first or after
a choice among single changes. -/
structure SortsStably (sorting : List Change → List Change) : Prop where
  settled : ∀ changes sorted, sorted = sorting changes ↔ IsStablySorted changes sorted
  perm : ∀ changes, (sorting changes).Perm changes
  idempotent : ∀ changes, sorting (sorting changes) = sorting changes
  append_left : ∀ xs ys, sorting (sorting xs ++ ys) = sorting (xs ++ ys)
  append_right : ∀ xs ys, sorting (xs ++ sorting ys) = sorting (xs ++ ys)
  filter : ∀ (p : Change → Bool) changes, (sorting changes).filter p = sorting (changes.filter p)

/-- Times are any integers, and any number of changes may share one. -/
theorem sortsStably_sort : SortsStably sort where
  settled changes sorted := by
    constructor
    · rintro rfl
      exact isStablySorted_sort changes
    · exact IsStablySorted.eq_sort
  perm := sort_perm
  idempotent := sort_sort
  append_left := sort_append_left
  append_right := sort_append_right
  filter := filter_sort

end VersionControl.Change
