import VersionControl.Proofs.Conflict.Deletion
import VersionControl.Proofs.Merge.Union

/-!
# Merging what is merged

What a stream makes superfluous depends only on which changes it holds. A change that a merge leaves out is
covered by one that the merge keeps, and that one covers whatever the other would have covered. So merging is
associative, and merging a side in once more adds nothing.
-/

namespace VersionControl.Merge

open Analysis (Stateless)
open ValueLibrary (equal)

/-- No identifier is that of two different changes. -/
def Unambiguous (changes : List Change) : Prop :=
  ∀ a ∈ changes, ∀ b ∈ changes, a.id ≠ "" → a.id = b.id → a = b

instance (changes : List Change) : Decidable (Unambiguous changes) :=
  inferInstanceAs (Decidable (∀ a ∈ changes, ∀ b ∈ changes, a.id ≠ "" → a.id = b.id → a = b))

section Library

variable [ValueLibrary] {ours theirs all : List Change} {change : Change}

/-- Whether a change of ours makes a change of theirs superfluous. -/
def Covers (mine change : Change) : Prop :=
  (change.id ≠ "" ∧ mine.id = change.id) ∨ isSameCreation mine change

/-- That two creations are the same is handed on from one change of the stream to the next. -/
def IsTransitiveOn (changes : List Change) : Prop :=
  ∀ a ∈ changes, ∀ b ∈ changes, ∀ c ∈ changes, isSameCreation a b → isSameCreation b c → isSameCreation a c

theorem isKnown_iff_covers : isKnown ours change ↔ ∃ mine ∈ ours, Covers mine change := by
  simp only [isKnown, Covers, Bool.or_eq_true, Bool.and_eq_true, decide_eq_true_eq, List.any_eq_true]
  constructor
  · rintro (⟨hid, mine, hmine, hsame⟩ | ⟨mine, hmine, hsame⟩)
    · exact ⟨mine, hmine, .inl ⟨hid, hsame⟩⟩
    · exact ⟨mine, hmine, .inr hsame⟩
  · rintro ⟨mine, hmine, ⟨hid, hsame⟩ | hsame⟩
    · exact .inl ⟨hid, mine, hmine, hsame⟩
    · exact .inr ⟨mine, hmine, hsame⟩

/-- Nothing is compared of creations without after-states, and otherwise an equality that is transitive is enough. -/
theorem isTransitiveOn_of_equal (h : (∀ c ∈ all, c.kind.isCreate → c.after = none) ∨
    ∀ x y z : Value, equal x y → equal y z → equal x z) : IsTransitiveOn all := by
  intro a ha b hb c hc hab hbc
  rcases h with hafter | hequal
  · obtain ⟨-, hkind, htarget⟩ := (isSameCreation_iff (hafter a ha) (hafter b hb)).1 hab
    obtain ⟨hcreate, hkind', htarget'⟩ := (isSameCreation_iff (hafter b hb) (hafter c hc)).1 hbc
    exact (isSameCreation_iff (hafter a ha) (hafter c hc)).2
      ⟨hcreate, hkind.trans hkind', htarget.trans htarget'⟩
  · simp only [isSameCreation, Bool.and_eq_true, decide_eq_true_eq] at *
    obtain ⟨⟨⟨⟨ha, -⟩, hkind⟩, htarget⟩, hagree⟩ := hab
    obtain ⟨⟨⟨⟨-, hc⟩, hkind'⟩, htarget'⟩, hagree'⟩ := hbc
    exact ⟨⟨⟨⟨ha, hc⟩, hkind.trans hkind'⟩, htarget.trans htarget'⟩, Value.agree_trans hequal hagree hagree'⟩

/-- A step by an identifier leads to the same change, and two steps by creations make one. -/
theorem Covers.trans {a b c : Change} (hab : Covers a b) (hbc : Covers b c) (h : Unambiguous all)
    (htrans : IsTransitiveOn all) (ha : a ∈ all) (hb : b ∈ all) (hc : c ∈ all) : Covers a c := by
  rcases hab with ⟨hid, hsame⟩ | hcreation
  · obtain rfl : a = b := h a ha b hb (hsame ▸ hid) hsame
    exact hbc
  · rcases hbc with ⟨hid, hsame⟩ | hcreation'
    · obtain rfl : b = c := h b hb c hc (hsame ▸ hid) hsame
      exact .inr hcreation
    · exact .inr (htrans a ha b hb c hc hcreation hcreation')

/-! ## What a merged stream covers -/

theorem mem_union : change ∈ union ours theirs ↔
    change ∈ ours ∨ change ∈ theirs ∧ isKnown ours change = false := by
  simp [union]

theorem isKnown_mono (hsub : ours ⊆ all) (h : isKnown ours change) : isKnown all change := by
  obtain ⟨mine, hmine, hcovers⟩ := isKnown_iff_covers.1 h
  exact isKnown_iff_covers.2 ⟨mine, hsub hmine, hcovers⟩

theorem isKnown_union_of_left (h : isKnown ours change) : isKnown (union ours theirs) change :=
  isKnown_mono (List.subset_append_left _ _) h

theorem isKnown_sort (ours : List Change) (change : Change) :
    isKnown (Change.sort ours) change = isKnown ours change := by
  rw [Bool.eq_iff_iff]
  exact ⟨isKnown_mono fun c => Change.mem_sort.1, isKnown_mono fun c => Change.mem_sort.2⟩

/-- What theirs covers the merged stream covers too: a covering change of theirs that is left out is covered
itself. -/
theorem isKnown_union (h : Unambiguous all) (htrans : IsTransitiveOn all) (hours : ours ⊆ all)
    (htheirs : theirs ⊆ all) (hchange : change ∈ all) :
    isKnown (union ours theirs) change = (isKnown ours change || isKnown theirs change) := by
  rw [Bool.eq_iff_iff, Bool.or_eq_true]
  constructor
  · rw [isKnown_iff_covers]
    rintro ⟨mine, hmine, hcovers⟩
    exact (mem_union.1 hmine).imp (fun hmine => isKnown_iff_covers.2 ⟨mine, hmine, hcovers⟩)
      fun hmine => isKnown_iff_covers.2 ⟨mine, hmine.1, hcovers⟩
  · rintro (hknown | hknown)
    · exact isKnown_union_of_left hknown
    · obtain ⟨other, hother, hcovers⟩ := isKnown_iff_covers.1 hknown
      cases hleft : isKnown ours other with
      | false => exact isKnown_iff_covers.2 ⟨other, mem_union.2 (.inr ⟨hother, hleft⟩), hcovers⟩
      | true =>
          obtain ⟨mine, hmine, hmineCovers⟩ := isKnown_iff_covers.1 hleft
          refine isKnown_iff_covers.2 ⟨mine, mem_union.2 (.inl hmine), ?_⟩
          exact hmineCovers.trans hcovers h htrans (hours hmine) (htheirs hother) hchange

/-! ## Associativity -/

theorem sort_union_sort_left (ours theirs : List Change) :
    Change.sort (union (Change.sort ours) theirs) = Change.sort (union ours theirs) := by
  simp only [union, isKnown_sort, Change.sort_append_left]

theorem sort_union_sort_right (ours theirs : List Change) :
    Change.sort (union ours (Change.sort theirs)) = Change.sort (union ours theirs) := by
  simp only [union, Change.filter_sort, Change.sort_append_right]

theorem union_assoc {a b c : List Change} (h : Unambiguous (a ++ b ++ c))
    (htrans : IsTransitiveOn (a ++ b ++ c)) : union (union a b) c = union a (union b c) := by
  have hknown (change : Change) (hchange : change ∈ c) :
      isKnown (union a b) change = (isKnown a change || isKnown b change) :=
    isKnown_union h htrans (fun _ hmem => by simp [hmem]) (fun _ hmem => by simp [hmem]) (by simp [hchange])
  calc union (union a b) c
      = a ++ b.filter (!isKnown a ·) ++ c.filter (!isKnown (union a b) ·) := rfl
    _ = a ++ b.filter (!isKnown a ·) ++ c.filter (fun change => !isKnown a change && !isKnown b change) := by
        congr 1
        exact List.filter_congr fun change hchange => by rw [hknown change hchange, Bool.not_or]
    _ = union a (union b c) := by
        simp only [union, List.filter_append, List.filter_filter, List.append_assoc]

/-- It does not matter which two of three streams are merged first, if no creation carries an after-state or the
equality of values is transitive. -/
theorem changes_assoc (a b c : List Change) (options : Options) (h : Unambiguous (a ++ b ++ c))
    (hequal : (∀ change ∈ a ++ b ++ c, change.kind.isCreate → change.after = none) ∨
      ∀ x y z : Value, equal x y → equal y z → equal x z) :
    (streams (streams a b options).changes c options).changes =
      (streams a (streams b c options).changes options).changes := by
  calc (streams (streams a b options).changes c options).changes
      = Change.sort (union (Change.sort (union a b)) c) := by rw [changes_eq, changes_eq]
    _ = Change.sort (union (union a b) c) := sort_union_sort_left _ _
    _ = Change.sort (union a (union b c)) := by
        rw [union_assoc h (isTransitiveOn_of_equal hequal)]
    _ = Change.sort (union a (Change.sort (union b c))) := (sort_union_sort_right _ _).symm
    _ = (streams a (streams b c options).changes options).changes := by rw [changes_eq, changes_eq]

end Library

/-- The second stream's creation is covered by the first stream's and by itself in the third, where an
anonymous creation is left out and an anonymous update is kept however often it occurs. -/
theorem changes_assoc_of_covered_creation :
    let a : List Change := [{ id := "a1", time := 3, target := "posts:p" }]
    let b : List Change := [{ id := "b1", time := 5, target := "posts:p" },
      { time := 3, kind := .update, target := "posts:p" }]
    let c : List Change := [{ id := "b1", time := 5, target := "posts:p" }, { time := 0, target := "posts:p" },
      { time := 3, kind := .update, target := "posts:p" }, { id := "c1", time := 1, kind := .delete }]
    Unambiguous (a ++ b ++ c) ∧ (∀ change ∈ a ++ b ++ c, change.kind.isCreate → change.after = none) ∧
      (streams (streams a b).changes c).changes = (streams a (streams b c).changes).changes := by
  intro a b c
  have h : Unambiguous (a ++ b ++ c) := by decide
  have hafter : ∀ change ∈ a ++ b ++ c, change.kind.isCreate → change.after = none := by decide
  exact ⟨h, hafter, changes_assoc a b c {} h (.inl hafter)⟩

section Library

variable [ValueLibrary] {ours theirs : List Change} {change : Change}

/-! ## Merging again -/

theorem isKnown_of_mem (hid : change.id ≠ "") (hmem : change ∈ ours) : isKnown ours change :=
  isKnown_iff_covers.2 ⟨change, hmem, .inl ⟨hid, rfl⟩⟩

theorem isKnown_union_of_right (hid : change.id ≠ "") (hmem : change ∈ theirs) :
    isKnown (union ours theirs) change := by
  cases hknown : isKnown ours change with
  | true => exact isKnown_union_of_left hknown
  | false => exact isKnown_of_mem hid (mem_union.2 (.inr ⟨hmem, hknown⟩))

theorem union_of_known (h : ∀ change ∈ theirs, isKnown ours change) : union ours theirs = ours := by
  rw [union, List.filter_eq_nil_iff.2 (by simpa using h), List.append_nil]

/-- Of a merged stream our side adds what theirs added. -/
theorem union_union (h : ∀ change ∈ ours, change.id ≠ "") :
    union ours (union ours theirs) = union ours theirs := by
  have hours : ours.filter (!isKnown ours ·) = [] :=
    List.filter_eq_nil_iff.2 fun change hmem => by simp [isKnown_of_mem (h change hmem) hmem]
  simp only [union, List.filter_append, hours, List.nil_append, List.filter_filter, Bool.and_self]

theorem conflicts_between_self (h : ∀ value, equal value value) (change : Change) :
    (Analysis.between change change).conflicts = [] := by
  have hwholes (kind : Conflict.Kind) : Analysis.ofWholes kind change change = {} :=
    if_pos (Value.agree_refl h _)
  have hfield (field : String) : Analysis.ofField change change field = {} := if_pos (Value.agree_refl h _)
  have hupdates : (Analysis.ofUpdates change change).conflicts = [] := by
    rw [Analysis.ofUpdates]
    split
    case h_1 => simp [Analysis.join, hfield]
    case h_2 => rw [hwholes]
  rw [Analysis.between, hwholes]
  split
  case isTrue => rfl
  case isFalse hdelete =>
    rw [Bool.and_self] at hdelete
    rw [Bool.or_self, if_neg hdelete]
    split
    case isTrue => rfl
    case isFalse => exact hupdates

/-- Nothing conflicts with itself, where there is nothing to compare or every value equals itself. -/
theorem conflicts_self {side : List Change} (h : Stateless side side ∨ ∀ value, equal value value) :
    (Analysis.ofStreams side side).conflicts = [] := by
  refine List.eq_nil_iff_forall_not_mem.2 fun conflict hmem => ?_
  obtain ⟨mine, last, htarget, hmine, hlast, hfound⟩ := Analysis.mem_conflicts_iff.1 hmem
  obtain rfl : mine = last := hmine.eq hlast htarget
  rcases h with hstateless | hequal
  · obtain ⟨hstate, -⟩ := hstateless mine mine rfl hmine hmine
    rw [Analysis.between_eq hstate hstate, if_pos rfl] at hfound
    cases hfound
  · rw [conflicts_between_self hequal] at hfound
    cases hfound

/-- Where all changes have identifiers, merging a side into the merged stream or the merged stream into a side
or itself gives the merged stream, and merging a stream with itself sorts it. It finds no conflict with itself if
there is nothing to compare or every value equals itself. -/
theorem changes_again (a b : List Change) (first again : Options) (h : ∀ change ∈ a ++ b, change.id ≠ "") :
    let merged := (streams a b first).changes
    (streams merged b again).changes = merged ∧ (streams a merged again).changes = merged ∧
      (streams merged merged again).changes = merged ∧
      ∀ (side : List Change) (options : Options), (∀ change ∈ side, change.id ≠ "") →
        (streams side side options).changes = Change.sort side ∧
          (Stateless side side ∨ (∀ value, equal value value) →
            (streams side side options).conflicts = [] ∧ (streams side side options).isSuccess) := by
  intro merged
  have ha : ∀ change ∈ a, change.id ≠ "" := fun change hmem => h change (List.mem_append_left _ hmem)
  have hb : ∀ change ∈ b, change.id ≠ "" := fun change hmem => h change (List.mem_append_right _ hmem)
  have hunion : ∀ change ∈ union a b, change.id ≠ "" := fun change hmem =>
    (mem_union.1 hmem).elim (ha change) fun hmem => hb change hmem.1
  have hmerged : merged = Change.sort (union a b) := changes_eq a b first
  refine ⟨?_, ?_, ?_, fun side options hside => ?_⟩
  · rw [hmerged, changes_eq, sort_union_sort_left,
      union_of_known fun change hmem => isKnown_union_of_right (hb change hmem) hmem]
  · rw [hmerged, changes_eq, sort_union_sort_right, union_union ha]
  · rw [hmerged, changes_eq, sort_union_sort_left, sort_union_sort_right,
      union_of_known fun change hmem => isKnown_of_mem (hunion change hmem) hmem]
  · constructor
    · rw [changes_eq, union_of_known fun change hmem => isKnown_of_mem (hside change hmem) hmem]
    · intro hself
      have hconflicts : (streams side side options).conflicts = [] := by
        simp [streams, conflicts_self hself, flag]
      exact ⟨hconflicts, by simp [Outcome.isSuccess, hconflicts]⟩

end Library

/-- Identifiers may occur twice, in one stream and with another content. -/
theorem changes_again_of_repeated_identifiers :
    let a : List Change := [{ id := "x", time := 2, target := "posts:p" },
      { id := "x", time := 1, kind := .update, target := "posts:q" }]
    let b : List Change := [{ id := "y", time := 3, target := "posts:p" }, { id := "x", time := 4, kind := .delete },
      { id := "z", time := 1, kind := .update, target := "posts:q" },
      { id := "z", time := 1, kind := .delete, target := "posts:q" }]
    let merged := (streams a b).changes
    (∀ change ∈ a ++ b, change.id ≠ "") ∧ (∀ change ∈ b, change.id ≠ "") ∧ Stateless b b ∧
      (streams merged b).changes = merged ∧ (streams a merged).changes = merged ∧
      (streams merged merged).changes = merged ∧ (streams b b).changes = Change.sort b ∧
      (streams b b).conflicts = [] ∧ (streams b b).isSuccess := by
  intro a b merged
  have h : ∀ change ∈ a ++ b, change.id ≠ "" := by decide
  have hb : ∀ change ∈ b, change.id ≠ "" := by decide
  have hafter : ∀ change ∈ b, change.after = none := by decide
  have hstateless : Stateless b b := Analysis.stateless_of_after hafter hafter
  obtain ⟨hright, hleft, hboth, hself⟩ := changes_again a b {} {} h
  obtain ⟨hsorted, hopen⟩ := hself b {} hb
  exact ⟨h, hb, hstateless, hright, hleft, hboth, hsorted, hopen (.inl hstateless)⟩

end VersionControl.Merge
