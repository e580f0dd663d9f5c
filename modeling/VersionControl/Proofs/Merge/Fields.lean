import VersionControl.Merge.Streams
import VersionControl.Proofs.Change.Combining
import VersionControl.Proofs.Conflict.Detection

/-!
# Field by field

Of two updates whose states are objects each field on which they differ is either in conflict or changed by operators
that commute, and no other field is told. A merge that is asked to combines the operators of both sides once for each
target with a field of the second kind.
-/

namespace VersionControl

section Library

open ValueLibrary (members?)

variable [ValueLibrary] {ours theirs : List Change} {mine last : Change} {found : CommutingField}

namespace Analysis

open Change (IsLatest)

/-! ## One field -/

/-- The states have not the same under the name. -/
def Differs (mine last : Change) (field : String) : Prop :=
  ¬ Value.agree (Value.member? mine.state field) (Value.member? last.state field)

/-- Both sides changed the field, by operators that commute on it. -/
def Commutes (mine last : Change) (field : String) : Prop :=
  mine.effectiveOperators.commutesOn last.effectiveOperators field

theorem ofField_of_agree {field : String} (h : ¬ Differs mine last field) : ofField mine last field = {} :=
  if_pos (not_not.1 h)

/-- Sides whose operators commute on a field have operators. -/
theorem ofField_of_commutes {field : String} (h : Differs mine last field) (hcommutes : Commutes mine last field) :
    ofField mine last field = { commuting := [
      { target := mine.target, field, ours := mine.effectiveOperators, theirs := last.effectiveOperators }] } := by
  obtain ⟨hours, htheirs, -⟩ := Operators.commutesOn_iff.1 hcommutes
  simp only [Differs, Commutes] at h hcommutes
  simp [ofField, h, hcommutes, Operators.isEmpty_eq_false_of_mem_fields hours,
    Operators.isEmpty_eq_false_of_mem_fields htheirs]

theorem ofField_of_not_commutes {field : String} (h : Differs mine last field)
    (hcommutes : ¬ Commutes mine last field) :
    (ofField mine last field).commuting = [] ∧ (ofField mine last field).conflicts.map (·.field) = [some field] := by
  simp only [Differs, Commutes] at h hcommutes
  simp [ofField, h, hcommutes]

theorem mem_commuting_ofField_iff {field : String} : found ∈ (ofField mine last field).commuting ↔
    Differs mine last field ∧ Commutes mine last field ∧
      found = { target := mine.target, field, ours := mine.effectiveOperators, theirs := last.effectiveOperators } := by
  by_cases hdiffers : Differs mine last field
  · by_cases hcommutes : Commutes mine last field
    · simp [ofField_of_commutes hdiffers hcommutes, hdiffers, hcommutes]
    · simp [ofField_of_not_commutes hdiffers hcommutes, hcommutes]
  · simp [ofField_of_agree hdiffers, hdiffers]

theorem mem_map_field_ofField_iff {field : String} {other : Option String} :
    other ∈ (ofField mine last field).conflicts.map (·.field) ↔
      Differs mine last field ∧ ¬ Commutes mine last field ∧ other = some field := by
  by_cases hdiffers : Differs mine last field
  · by_cases hcommutes : Commutes mine last field
    · simp [ofField_of_commutes hdiffers hcommutes, hcommutes]
    · rw [(ofField_of_not_commutes hdiffers hcommutes).2]
      simp [hdiffers, hcommutes]
  · simp [ofField_of_agree hdiffers, hdiffers]

/-! ## Two updates -/

/-- A field that neither state has is none on which they differ. -/
theorem Differs.mem_keys {members others : Dict Value} {field : String}
    (hmine : mine.state.bind members? = some members) (hlast : last.state.bind members? = some others)
    (h : Differs mine last field) :
    field ∈ (Dict.unionWith (fun _ value _ => value) members others).keys := by
  by_contra hmissing
  rw [Dict.mem_keys_unionWith, not_or, Dict.mem_keys, Dict.mem_keys, ← Option.ne_none_iff_exists',
    ← Option.ne_none_iff_exists', not_not, not_not] at hmissing
  refine h ?_
  rw [Value.member?, Value.member?, hmine, hlast, Option.bind_some, Option.bind_some, hmissing.1, hmissing.2]
  rfl

/-- Of two objects the fields in conflict are those on which they differ but no operators commute. -/
theorem mem_map_field_ofUpdates_iff {members others : Dict Value} (hmine : mine.state.bind members? = some members)
    (hlast : last.state.bind members? = some others) {other : Option String} :
    other ∈ (ofUpdates mine last).conflicts.map (·.field) ↔
      ∃ field, Differs mine last field ∧ ¬ Commutes mine last field ∧ other = some field := by
  simp only [ofUpdates, hmine, hlast, join, List.flatMap_map, List.map_flatMap, List.mem_flatMap,
    mem_map_field_ofField_iff]
  constructor
  · rintro ⟨field, -, hfield⟩
    exact ⟨field, hfield⟩
  · rintro ⟨field, hdiffers, hfield⟩
    exact ⟨field, hdiffers.mem_keys hmine hlast, hdiffers, hfield⟩

/-- And the other fields on which they differ are told with the operators of both sides. -/
theorem mem_commuting_ofUpdates_iff {members others : Dict Value} (hmine : mine.state.bind members? = some members)
    (hlast : last.state.bind members? = some others) : found ∈ (ofUpdates mine last).commuting ↔
      Differs mine last found.field ∧ Commutes mine last found.field ∧ found.target = mine.target ∧
        found.ours = mine.effectiveOperators ∧ found.theirs = last.effectiveOperators := by
  simp only [ofUpdates, hmine, hlast, join, List.flatMap_map, List.mem_flatMap, mem_commuting_ofField_iff]
  constructor
  · rintro ⟨field, -, hdiffers, hcommutes, rfl⟩
    exact ⟨hdiffers, hcommutes, rfl, rfl, rfl⟩
  · rintro ⟨hdiffers, hcommutes, htarget, hours, htheirs⟩
    refine ⟨found.field, hdiffers.mem_keys hmine hlast, hdiffers, hcommutes, ?_⟩
    rw [← htarget, ← hours, ← htheirs]

/-- Only updates whose states are objects have fields with operators that commute. -/
theorem of_mem_commuting_between (h : found ∈ (between mine last).commuting) :
    Commutes mine last found.field ∧ found.target = mine.target ∧ found.ours = mine.effectiveOperators ∧
      found.theirs = last.effectiveOperators := by
  have hwholes (kind : Conflict.Kind) : (ofWholes kind mine last).commuting = [] := by
    rw [ofWholes]
    split <;> rfl
  rw [between] at h
  split at h
  case isTrue => cases h
  case isFalse =>
    split at h
    case isTrue => cases h
    case isFalse =>
      split at h
      case isTrue => cases hwholes _ ▸ h
      case isFalse =>
        cases hmine : mine.state.bind members? with
        | none => simp [ofUpdates, hmine, hwholes] at h
        | some members =>
            cases hlast : last.state.bind members? with
            | none => simp [ofUpdates, hmine, hlast, hwholes] at h
            | some others => exact ((mem_commuting_ofUpdates_iff hmine hlast).1 h).2

/-! ## Two streams -/

theorem mem_commuting_iff : found ∈ (ofStreams ours theirs).commuting ↔
    ∃ mine last, mine.target = last.target ∧ IsLatest mine ours ∧ IsLatest last theirs ∧
      found ∈ (between mine last).commuting := by
  rw [commuting_eq, List.mem_flatMap]
  constructor
  · rintro ⟨target, -, hfound⟩
    rcases onTarget_cases ours theirs target with hnone | ⟨mine, last, rfl, hlastTarget, hmine, hlast, heq⟩
    · cases hnone ▸ hfound
    · exact ⟨mine, last, hlastTarget.symm, hmine, hlast, heq ▸ hfound⟩
  · rintro ⟨mine, last, htarget, hmine, hlast, hfound⟩
    refine ⟨mine.target, Change.mem_targets.2 ⟨mine, hmine.mem, rfl⟩, ?_⟩
    rwa [onTarget_eq rfl htarget.symm hmine hlast]

end Analysis

namespace Merge

open Analysis (between ofStreams)
open Change (latestOn? IsLatest)

/-! ## Combined operators -/

/-- Fields of one target come to the same combination, and the first of them is the one that makes it. -/
theorem get?_combineCommuting {commuting : List CommutingField} {combined : String → Operators}
    (h : ∀ found ∈ commuting, found.ours.combine found.theirs = combined found.target ∧
      (combined found.target).isEmpty = false) (target : String) :
    (combineCommuting commuting).get? target =
      if target ∈ commuting.map (·.target) then some (combined target) else none := by
  induction commuting using List.reverseRecOn generalizing target with
  | nil => rfl
  | append_singleton commuting found ih =>
      obtain ⟨hcombined, hsome⟩ := h found (by simp)
      have hbefore (other : String) := ih (fun c hc => h c (List.mem_append_left _ hc)) other
      have hstep : combineCommuting (commuting ++ [found]) =
          if (((combineCommuting commuting).get? found.target).getD .empty).isEmpty then
            (combineCommuting commuting).insert found.target (found.ours.combine found.theirs)
          else combineCommuting commuting := by
        rw [combineCommuting, List.foldl_append]
        rfl
      rw [hstep, hbefore found.target, hcombined, List.map_append, List.map_singleton]
      by_cases hknown : found.target ∈ commuting.map (·.target)
      · have hkept : target ∈ commuting.map (·.target) ++ [found.target] ↔ target ∈ commuting.map (·.target) := by
          rw [List.mem_append, List.mem_singleton, or_iff_left_iff_imp]
          exact fun htarget => htarget ▸ hknown
        rw [if_pos hknown, Option.getD_some, hsome, if_neg Bool.false_ne_true, hbefore target]
        simp only [hkept]
      · have hfresh : Dict.isEmpty (.empty : Operators) = true := rfl
        rw [if_neg hknown, Option.getD_none, if_pos hfresh, Dict.get?_insert]
        by_cases htarget : found.target = target
        · simp [htarget]
        · simp [htarget, Ne.symm htarget, hbefore target]

/-- What a merge combines for a target. -/
def combinedOn (ours theirs : List Change) (target : String) : Operators :=
  match latestOn? target ours, latestOn? target theirs with
  | some mine, some last => mine.effectiveOperators.combine last.effectiveOperators
  | _, _ => .empty

theorem combinedOn_eq (htarget : mine.target = last.target) (hmine : IsLatest mine ours)
    (hlast : IsLatest last theirs) :
    combinedOn ours theirs mine.target = mine.effectiveOperators.combine last.effectiveOperators := by
  rw [combinedOn, Change.latestOn?_eq_some_iff.2 ⟨rfl, hmine⟩, Change.latestOn?_eq_some_iff.2 ⟨htarget.symm, hlast⟩]

/-- Operators that commute on a field are not nothing, so neither is their combination. -/
theorem combine_of_mem_commuting (h : found ∈ (ofStreams ours theirs).commuting) :
    found.ours.combine found.theirs = combinedOn ours theirs found.target ∧
      (combinedOn ours theirs found.target).isEmpty = false := by
  obtain ⟨mine, last, htarget, hmine, hlast, hfound⟩ := Analysis.mem_commuting_iff.1 h
  obtain ⟨hcommutes, hfoundTarget, hours, htheirs⟩ := Analysis.of_mem_commuting_between hfound
  rw [hfoundTarget, combinedOn_eq htarget hmine hlast, hours, htheirs]
  have hfield : found.field ∈ mine.effectiveOperators.fields := (Operators.commutesOn_iff.1 hcommutes).1
  exact ⟨rfl, Operators.isEmpty_eq_false_of_mem_fields (Operators.mem_fields_combineWith.2 (.inl hfield))⟩

theorem target_mem_commuting_iff (htarget : mine.target = last.target) (hmine : IsLatest mine ours)
    (hlast : IsLatest last theirs) :
    mine.target ∈ (ofStreams ours theirs).commuting.map (·.target) ↔ (between mine last).commuting ≠ [] := by
  rw [List.mem_map, ne_eq, List.eq_nil_iff_forall_not_mem, not_forall_not]
  constructor
  · rintro ⟨found, hmem, hfoundTarget⟩
    obtain ⟨other, otherLast, hother, hotherMine, hotherLast, hfound⟩ := Analysis.mem_commuting_iff.1 hmem
    have hsame : other.target = mine.target := (Analysis.of_mem_commuting_between hfound).2.1.symm.trans hfoundTarget
    obtain rfl : other = mine := hotherMine.eq hmine hsame
    obtain rfl : otherLast = last := hotherLast.eq hlast (hother.symm.trans htarget)
    exact ⟨found, hfound⟩
  · rintro ⟨found, hfound⟩
    exact ⟨found, Analysis.mem_commuting_iff.2 ⟨mine, last, htarget, hmine, hlast, hfound⟩,
      (Analysis.of_mem_commuting_between hfound).2.1⟩

/-- A merge that is asked to combines the operators of both sides for the targets with a field on which they commute,
and for no others. -/
theorem get?_combined {options : Options} (h : options.autoMerge = true) (htarget : mine.target = last.target)
    (hmine : IsLatest mine ours) (hlast : IsLatest last theirs) :
    (streams ours theirs options).combined.get? mine.target =
      if (between mine last).commuting ≠ [] then some (mine.effectiveOperators.combine last.effectiveOperators)
      else none := by
  have hcombined : (streams ours theirs options).combined = combineCommuting (ofStreams ours theirs).commuting := by
    simp only [streams, h, if_true]
  rw [hcombined, get?_combineCommuting fun _ => combine_of_mem_commuting, combinedOn_eq htarget hmine hlast]
  simp only [target_mem_commuting_iff htarget hmine hlast]

end Merge

end Library

end VersionControl
