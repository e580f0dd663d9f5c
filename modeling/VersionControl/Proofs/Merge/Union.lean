import VersionControl.Merge.Streams
import VersionControl.Proofs.Change.Sort

/-!
# What the merged stream holds

The merged stream is our stream and what theirs adds to it, in ascending time. At each time it holds our
changes and then those of theirs that repeat none of ours, both in their order.
-/

namespace VersionControl.Merge

/-- Whether our stream tells already what a change tells: it has the identifier, or it creates the same
entity. -/
def IsRepeated (ours : List Change) (change : Change) : Prop :=
  (change.id ≠ "" ∧ ∃ mine ∈ ours, mine.id = change.id) ∨
    (change.kind.isCreate ∧ ∃ mine ∈ ours, mine.kind = change.kind ∧ mine.target = change.target)

instance (ours : List Change) (change : Change) : Decidable (IsRepeated ours change) :=
  inferInstanceAs (Decidable (_ ∨ _))

def additions (ours theirs : List Change) : List Change := theirs.filter (¬ IsRepeated ours ·)

section Library

variable [ValueLibrary] {ours theirs : List Change} {change : Change}

/-- Without after-states two creations of one entity tell the same. -/
theorem isSameCreation_iff {mine : Change} (hmine : mine.kind.isCreate → mine.after = none)
    (hchange : change.kind.isCreate → change.after = none) :
    isSameCreation mine change ↔
      change.kind.isCreate ∧ mine.kind = change.kind ∧ mine.target = change.target := by
  simp only [isSameCreation, Bool.and_eq_true, decide_eq_true_eq]
  constructor
  · rintro ⟨⟨⟨⟨-, hcreate⟩, hkind⟩, htarget⟩, -⟩
    exact ⟨hcreate, hkind, htarget⟩
  · rintro ⟨hcreate, hkind, htarget⟩
    have hmineCreate : mine.kind.isCreate := hkind ▸ hcreate
    have hagree : Value.agree mine.state change.state := by
      simp [Change.state, hmine hmineCreate, hchange hcreate, Value.agree]
    exact ⟨⟨⟨⟨hmineCreate, hcreate⟩, hkind⟩, htarget⟩, hagree⟩

theorem isKnown_iff (hours : ∀ c ∈ ours, c.kind.isCreate → c.after = none)
    (hchange : change.kind.isCreate → change.after = none) :
    isKnown ours change ↔ IsRepeated ours change := by
  have hcreation : ours.any (isSameCreation · change) ↔
      change.kind.isCreate ∧ ∃ mine ∈ ours, mine.kind = change.kind ∧ mine.target = change.target := by
    rw [List.any_eq_true]
    constructor
    · rintro ⟨mine, hmem, hsame⟩
      obtain ⟨hcreate, hlike⟩ := (isSameCreation_iff (hours mine hmem) hchange).1 hsame
      exact ⟨hcreate, mine, hmem, hlike⟩
    · rintro ⟨hcreate, mine, hmem, hlike⟩
      exact ⟨mine, hmem, (isSameCreation_iff (hours mine hmem) hchange).2 ⟨hcreate, hlike⟩⟩
  rw [isKnown, Bool.or_eq_true, hcreation, IsRepeated]
  simp

theorem union_eq (hours : ∀ c ∈ ours, c.kind.isCreate → c.after = none)
    (htheirs : ∀ c ∈ theirs, c.kind.isCreate → c.after = none) :
    union ours theirs = ours ++ additions ours theirs := by
  rw [union, additions]
  congr 1
  refine List.filter_congr fun c hc => ?_
  rw [Bool.eq_iff_iff, Bool.not_eq_true', decide_eq_true_eq, ← isKnown_iff hours (htheirs c hc),
    Bool.not_eq_true]

theorem changes_eq (ours theirs : List Change) (options : Options) :
    (streams ours theirs options).changes = Change.sort (union ours theirs) := rfl

/-- Nothing is lost, doubled or made up, and changes of one time keep their order, ours first. -/
theorem changes_at_each_time (ours theirs : List Change) (options : Options)
    (hours : ∀ c ∈ ours, c.kind.isCreate → c.after = none)
    (htheirs : ∀ c ∈ theirs, c.kind.isCreate → c.after = none) :
    (streams ours theirs options).changes.Pairwise (fun a b => a.time ≤ b.time) ∧
      ∀ time : Int, (streams ours theirs options).changes.filter (·.time = time) =
        ours.filter (·.time = time) ++ theirs.filter (fun c => c.time = time ∧ ¬ IsRepeated ours c) := by
  have hchanges : (streams ours theirs options).changes = Change.sort (union ours theirs) := rfl
  rw [hchanges, union_eq hours htheirs]
  refine ⟨Change.sort_ascending _, fun time => ?_⟩
  rw [Change.filter_time_sort, List.filter_append, additions, List.filter_filter]
  simp only [Bool.decide_and]

end Library

/-- Theirs shares an identifier with ours, creates an entity that ours creates too, and adds changes of the
times of ours. -/
theorem changes_at_each_time_of_overlap :
    let ours : List Change := [{ id := "o1", time := 2, target := "posts:a" },
      { id := "s", time := 1, kind := .update, target := "posts:b" }]
    let theirs : List Change := [{ time := 1, kind := .update, target := "posts:b" },
      { id := "t1", time := 1, target := "posts:a" }, { id := "s", time := 1, kind := .delete },
      { id := "t2", time := 2, kind := .relate, target := "posts:a" }]
    (∀ c ∈ ours, c.kind.isCreate → c.after = none) ∧ (∀ c ∈ theirs, c.kind.isCreate → c.after = none) ∧
      (streams ours theirs).changes.Pairwise (fun a b => a.time ≤ b.time) ∧
      (streams ours theirs).changes.filter (·.time = 1) =
        [{ id := "s", time := 1, kind := .update, target := "posts:b" },
          { time := 1, kind := .update, target := "posts:b" }] ∧
      (streams ours theirs).changes.filter (·.time = 2) =
        [{ id := "o1", time := 2, target := "posts:a" },
          { id := "t2", time := 2, kind := .relate, target := "posts:a" }] := by
  intro ours theirs
  have hours : ∀ c ∈ ours, c.kind.isCreate → c.after = none := by decide
  have htheirs : ∀ c ∈ theirs, c.kind.isCreate → c.after = none := by decide
  obtain ⟨hascending, hat⟩ := changes_at_each_time ours theirs {} hours htheirs
  refine ⟨hours, htheirs, hascending, (hat 1).trans ?_, (hat 2).trans ?_⟩ <;> decide

end VersionControl.Merge
