import VersionControl.Proofs.Change.Commuting
import VersionControl.Proofs.Merge.Outcome

/-!
# The sides of a merge exchanged

Which side is called ours decides in which order conflicts are found and, where both sides tell what the entity was
before, which of them is believed. All else that detection finds is the same from the other side, and so is whether
a merge without a strategy succeeds. States may be compared if it does not matter which of two is compared with the
other.
-/

namespace VersionControl

/-- Of two words for what was there before the first counts, unless the other one is asked for. -/
theorem Conflict.other_or (ourBase theirBase : Option Value) :
    (if ourBase.isSome && theirBase.isSome then theirBase else ourBase.or theirBase) = theirBase.or ourBase := by
  cases ourBase <;> cases theirBase <;> rfl

section Library

open ValueLibrary (equal)

variable [ValueLibrary]

/-- The conflict as the other side tells it. If both sides know what was there before, it is the other one's word that
counts. -/
def Conflict.mirror (conflict : Conflict) : Conflict where
  kind := conflict.kind
  target := conflict.target
  field := conflict.field
  ours := conflict.theirs
  theirs := conflict.ours
  base :=
    if (conflict.ourChange.beforeOf conflict.field).isSome && (conflict.theirChange.beforeOf conflict.field).isSome then
      conflict.theirChange.beforeOf conflict.field
    else conflict.base
  ourChange := conflict.theirChange
  theirChange := conflict.ourChange
  resolved := conflict.resolved

namespace Conflict

variable {mine last : Change}

theorem mirror_ofStates (h : mine.target = last.target) (kind : Kind) (ourState theirState : Option Value) :
    (ofStates kind mine last ourState theirState).mirror = ofStates kind last mine theirState ourState := by
  simp only [ofStates, mirror, Change.beforeOf, other_or, h]

end Conflict

namespace Analysis

open Change (IsLatest)

variable {ours theirs : List Change} {mine last : Change}

/-! ## Two changes -/

theorem ofWholes_exchanged (hequal : ∀ x y : Value, equal x y = equal y x) (h : mine.target = last.target)
    (kind : Conflict.Kind) :
    (ofWholes kind last mine).conflicts = (ofWholes kind mine last).conflicts.map Conflict.mirror := by
  rw [ofWholes, ofWholes, Value.agree_comm hequal]
  split
  · rfl
  · exact congrArg ([·]) (Conflict.mirror_ofStates h kind _ _).symm

theorem ofField_exchanged (hequal : ∀ x y : Value, equal x y = equal y x) (h : mine.target = last.target)
    (field : String) :
    (ofField last mine field).conflicts = (ofField mine last field).conflicts.map Conflict.mirror := by
  have hcommutes : last.effectiveOperators.commutesOn mine.effectiveOperators field =
      mine.effectiveOperators.commutesOn last.effectiveOperators field :=
    Bool.eq_iff_iff.2 ⟨Operators.commutesOn_symm, Operators.commutesOn_symm⟩
  simp only [ofField, Value.agree_comm hequal (Value.member? last.state field), hcommutes,
    Bool.and_comm (!last.effectiveOperators.isEmpty)]
  split
  · rfl
  · split
    · rfl
    · rw [← Conflict.other_or, Conflict.ofStates, ← h]
      rfl

theorem ofUpdates_exchanged (hequal : ∀ x y : Value, equal x y = equal y x) (h : mine.target = last.target) :
    (ofUpdates last mine).conflicts = (ofUpdates mine last).conflicts.map Conflict.mirror := by
  rw [ofUpdates, ofUpdates]
  cases hmine : mine.state.bind ValueLibrary.members? with
  | none => cases last.state.bind ValueLibrary.members? <;> exact ofWholes_exchanged hequal h _
  | some members =>
      cases hlast : last.state.bind ValueLibrary.members? with
      | none => exact ofWholes_exchanged hequal h _
      | some others =>
          simp only [join, List.flatMap_map, List.map_flatMap, ofField_exchanged hequal h]
          rw [Dict.keys_unionWith_comm]

theorem between_exchanged_of_equal (hequal : ∀ x y : Value, equal x y = equal y x) (h : mine.target = last.target) :
    (between last mine).conflicts = (between mine last).conflicts.map Conflict.mirror := by
  rw [between, between, Bool.and_comm last.kind.isDelete, Bool.or_comm last.kind.isDelete,
    Bool.and_comm last.kind.isCreate]
  split
  · rfl
  · split
    · exact congrArg ([·]) (Conflict.mirror_ofStates h _ _ _).symm
    · split
      · exact ofWholes_exchanged hequal h _
      · exact ofUpdates_exchanged hequal h

theorem between_exchanged_of_stateless (hmine : mine.kind.isDelete = false → mine.after = none)
    (hlast : last.kind.isDelete = false → last.after = none) (h : mine.target = last.target) :
    (between last mine).conflicts = (between mine last).conflicts.map Conflict.mirror := by
  rw [between_eq hmine hlast, between_eq hlast hmine]
  by_cases hsame : mine.kind.isDelete = last.kind.isDelete
  · rw [if_pos hsame, if_pos hsame.symm]
    rfl
  · rw [if_neg hsame, if_neg (Ne.symm hsame)]
    exact congrArg ([·]) (Conflict.mirror_ofStates h .deleteUpdate none none).symm

/-! ## Two streams -/

/-- Whether the latest changes of a target conflict, and in what, is asked of both sides alike. -/
theorem between_exchanged (hequal : Stateless ours theirs ∨ ∀ x y : Value, equal x y = equal y x)
    (h : mine.target = last.target) (hmine : IsLatest mine ours) (hlast : IsLatest last theirs) :
    (between last mine).conflicts = (between mine last).conflicts.map Conflict.mirror := by
  rcases hequal with hstateless | hequal
  · obtain ⟨hmineState, hlastState⟩ := hstateless mine last h hmine hlast
    exact between_exchanged_of_stateless hmineState hlastState h
  · exact between_exchanged_of_equal hequal h

theorem conflicts_exchanged (hequal : Stateless ours theirs ∨ ∀ x y : Value, equal x y = equal y x) :
    (ofStreams theirs ours).conflicts.Perm ((ofStreams ours theirs).conflicts.map Conflict.mirror) := by
  have hmirrored : (((ofStreams ours theirs).conflicts.map Conflict.mirror).map Conflict.place).Nodup := by
    rw [List.map_map]
    exact nodup_place_conflicts ours theirs
  refine (List.perm_ext_iff_of_nodup (nodup_conflicts theirs ours) hmirrored.of_map).2 fun conflict => ?_
  rw [List.mem_map]
  constructor
  · intro hmem
    obtain ⟨last, mine, htarget, hlast, hmine, hfound⟩ := mem_conflicts_iff.1 hmem
    rw [between_exchanged hequal htarget.symm hmine hlast, List.mem_map] at hfound
    obtain ⟨told, htold, rfl⟩ := hfound
    exact ⟨told, mem_conflicts_iff.2 ⟨mine, last, htarget.symm, hmine, hlast, htold⟩, rfl⟩
  · rintro ⟨told, hmem, rfl⟩
    obtain ⟨mine, last, htarget, hmine, hlast, hfound⟩ := mem_conflicts_iff.1 hmem
    refine mem_conflicts_iff.2 ⟨last, mine, htarget.symm, hlast, hmine, ?_⟩
    rw [between_exchanged hequal htarget hmine hlast]
    exact List.mem_map_of_mem hfound

end Analysis

end Library

namespace Merge

open Analysis (Stateless ofStreams)

section Library

open ValueLibrary (equal)

variable [ValueLibrary] {ours theirs : List Change} {options : Options}

theorem isSuccess_exchanged (hequal : Stateless ours theirs ∨ ∀ x y : Value, equal x y = equal y x)
    (h : options.strategy = none) :
    (streams theirs ours options).isSuccess = (streams ours theirs options).isSuccess := by
  have hlength : (ofStreams theirs ours).conflicts.length = (ofStreams ours theirs).conflicts.length := by
    simpa using (Analysis.conflicts_exchanged hequal).length_eq
  rw [Bool.eq_iff_iff, (isUnsettled_streams h).isSuccess_iff, (isUnsettled_streams h).isSuccess_iff,
    conflicts_of_none h, conflicts_of_none h, ← List.length_eq_zero_iff, hlength, List.length_eq_zero_iff]

theorem entitiesProcessed_exchanged (ours theirs : List Change) (options : Options) :
    (streams theirs ours options).stats.entitiesProcessed = (streams ours theirs options).stats.entitiesProcessed :=
  Change.length_eraseDups_of_perm (List.perm_append_comm.map _)

theorem entitiesWithConflicts_exchanged (hequal : Stateless ours theirs ∨ ∀ x y : Value, equal x y = equal y x)
    (options : Options) :
    (streams theirs ours options).stats.entitiesWithConflicts =
      (streams ours theirs options).stats.entitiesWithConflicts := by
  have htargets := (Analysis.conflicts_exchanged hequal).map (·.target)
  rw [List.map_map] at htargets
  exact Change.length_eraseDups_of_perm htargets

/-- From the other side the same conflicts are found, each told by its mirror. A merge without a strategy succeeds
from either side or from neither, and counts the same entities. -/
theorem streams_mirror (ours theirs : List Change) (autoMerge : Bool)
    (hequal : Stateless ours theirs ∨ ∀ x y : Value, equal x y = equal y x) :
    let merged := streams ours theirs { autoMerge }
    let exchanged := streams theirs ours { autoMerge }
    (ofStreams theirs ours).conflicts.Perm ((ofStreams ours theirs).conflicts.map Conflict.mirror) ∧
      exchanged.isSuccess = merged.isSuccess ∧
      exchanged.stats.entitiesProcessed = merged.stats.entitiesProcessed ∧
      exchanged.stats.entitiesWithConflicts = merged.stats.entitiesWithConflicts := by
  intro merged exchanged
  exact ⟨Analysis.conflicts_exchanged hequal, isSuccess_exchanged hequal rfl,
    entitiesProcessed_exchanged ours theirs _, entitiesWithConflicts_exchanged hequal _⟩

end Library

/-- The other side comes to the targets in another order. Of `posts:a` both sides tell an earlier state, of `posts:b`
only one does. -/
theorem streams_mirror_of_earlier_states :
    let ours : List Change := [
      { id := "o1", kind := .delete, target := "posts:a", before := some ⟨"mine"⟩ },
      { id := "o2", kind := .update, target := "posts:b" }]
    let theirs : List Change := [
      { id := "t1", kind := .delete, target := "posts:b", before := some ⟨"known"⟩ },
      { id := "t2", kind := .update, target := "posts:a", before := some ⟨"yours"⟩ }]
    Stateless ours theirs ∧
      (ofStreams ours theirs).conflicts.map (fun c => (c.target, c.base)) =
        [("posts:a", some ⟨"mine"⟩), ("posts:b", some ⟨"known"⟩)] ∧
      (ofStreams theirs ours).conflicts.map (fun c => (c.target, c.base)) =
        [("posts:b", some ⟨"known"⟩), ("posts:a", some ⟨"yours"⟩)] ∧
      (ofStreams theirs ours).conflicts.Perm ((ofStreams ours theirs).conflicts.map Conflict.mirror) ∧
      (streams theirs ours).isSuccess = (streams ours theirs).isSuccess := by
  intro ours theirs
  have hstateless : Stateless ours theirs := Analysis.stateless_of_after (by decide) (by decide)
  obtain ⟨hperm, hsuccess, -⟩ := streams_mirror ours theirs false (.inl hstateless)
  exact ⟨hstateless, by decide, by decide, hperm, hsuccess⟩

end Merge

end VersionControl
