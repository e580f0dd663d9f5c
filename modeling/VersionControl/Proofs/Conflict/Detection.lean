import Mathlib.Data.List.Nodup
import VersionControl.Conflict.Detection
import VersionControl.Proofs.Change.Targets
import VersionControl.Proofs.Dict

/-!
# Which conflicts are found

Detection compares the latest changes of each target on both sides, in the order in which our stream comes to
its targets. A conflict tells the two changes that it is about, and no field of a target is in two conflicts,
whatever the library of values says of the states.
-/

namespace VersionControl

/-- What a change tells that was there before it, in the field or as a whole. -/
def Change.beforeOf [ValueLibrary] (change : Change) : Option String → Option Value
  | none => change.before
  | some field => Value.member? change.before field

/-- A conflict of two changes tells both of them and their target, and leaves open whether it is settled. -/
structure Conflict.Tells [ValueLibrary] (mine last : Change) (conflict : Conflict) : Prop where
  target : conflict.target = mine.target
  base : conflict.base = (mine.beforeOf conflict.field).or (last.beforeOf conflict.field)
  ourChange : conflict.ourChange = mine
  theirChange : conflict.theirChange = last
  resolved : conflict.resolved = none

/-- Where a conflict is: on a field of a target, or on the target as a whole. -/
def Conflict.place (conflict : Conflict) : String × Option String := (conflict.target, conflict.field)

namespace Analysis

open Change (latestOn? IsLatest targets)

theorem join_filterMap {α : Type} (f : α → Option Analysis) (xs : List α) :
    join (xs.filterMap f) = join (xs.map fun x => (f x).getD {}) := by
  induction xs with
  | nil => rfl
  | cons x rest ih =>
      simp only [join, mk.injEq] at ih ⊢
      cases hx : f x <;> simp [hx, ih]

section Library

variable [ValueLibrary] {ours theirs : List Change} {target field : String} {mine last : Change} {conflict : Conflict}

/-- What the latest changes of a target come to, if both sides have one. -/
def onTarget (ours theirs : List Change) (target : String) : Analysis :=
  match latestOn? target ours, latestOn? target theirs with
  | some mine, some last => between mine last
  | _, _ => {}

theorem ofStreams_eq (ours theirs : List Change) :
    ofStreams ours theirs = join ((targets ours).map (onTarget ours theirs)) := by
  simp only [ofStreams, Change.latest_eq ours, List.filterMap_filterMap, join_filterMap]
  refine congrArg join (List.map_congr_left fun target _ => ?_)
  rw [onTarget]
  cases hmine : latestOn? target ours with
  | none => rfl
  | some mine =>
      obtain ⟨rfl, -⟩ := Change.latestOn?_eq_some_iff.1 hmine
      change ((latestOn? mine.target theirs).map (between mine)).getD {} = _
      cases latestOn? mine.target theirs <;> rfl

theorem conflicts_eq (ours theirs : List Change) :
    (ofStreams ours theirs).conflicts =
      (targets ours).flatMap fun target => (onTarget ours theirs target).conflicts := by
  rw [ofStreams_eq]
  exact List.flatMap_map _ _ _

theorem commuting_eq (ours theirs : List Change) :
    (ofStreams ours theirs).commuting =
      (targets ours).flatMap fun target => (onTarget ours theirs target).commuting := by
  rw [ofStreams_eq]
  exact List.flatMap_map _ _ _

theorem onTarget_eq (hmine : mine.target = target) (hlast : last.target = target) (hours : IsLatest mine ours)
    (htheirs : IsLatest last theirs) : onTarget ours theirs target = between mine last := by
  rw [onTarget, Change.latestOn?_eq_some_iff.2 ⟨hmine, hours⟩, Change.latestOn?_eq_some_iff.2 ⟨hlast, htheirs⟩]

theorem onTarget_cases (ours theirs : List Change) (target : String) : onTarget ours theirs target = {} ∨
    ∃ mine last, mine.target = target ∧ last.target = target ∧ IsLatest mine ours ∧ IsLatest last theirs ∧
      onTarget ours theirs target = between mine last := by
  rw [onTarget]
  split
  case h_1 mine last hours htheirs =>
    obtain ⟨hmine, hmineLatest⟩ := Change.latestOn?_eq_some_iff.1 hours
    obtain ⟨hlast, hlastLatest⟩ := Change.latestOn?_eq_some_iff.1 htheirs
    exact .inr ⟨mine, last, hmine, hlast, hmineLatest, hlastLatest, rfl⟩
  case h_2 => exact .inl rfl

/-! ## Two changes -/

theorem tells_ofStates (kind : Conflict.Kind) (ourState theirState : Option Value) :
    (Conflict.ofStates kind mine last ourState theirState).Tells mine last :=
  ⟨rfl, rfl, rfl, rfl, rfl⟩

theorem tells_of_mem_ofWholes {kind : Conflict.Kind} (h : conflict ∈ (ofWholes kind mine last).conflicts) :
    conflict.Tells mine last := by
  rw [ofWholes] at h
  split at h
  case isTrue => cases h
  case isFalse =>
    obtain rfl := List.mem_singleton.1 h
    exact tells_ofStates kind _ _

theorem of_mem_ofField (h : conflict ∈ (ofField mine last field).conflicts) :
    conflict.Tells mine last ∧ conflict.field = some field := by
  simp only [ofField] at h
  split at h
  case isTrue => cases h
  case isFalse =>
    split at h
    case isTrue => cases h
    case isFalse =>
      obtain rfl := List.mem_singleton.1 h
      exact ⟨⟨rfl, rfl, rfl, rfl, rfl⟩, rfl⟩

theorem tells_of_mem_ofUpdates (h : conflict ∈ (ofUpdates mine last).conflicts) : conflict.Tells mine last := by
  rw [ofUpdates] at h
  split at h
  case h_1 =>
    rw [join, List.flatMap_map, List.mem_flatMap] at h
    obtain ⟨field, -, hfield⟩ := h
    exact (of_mem_ofField hfield).1
  case h_2 => exact tells_of_mem_ofWholes h

theorem tells_of_mem_between (h : conflict ∈ (between mine last).conflicts) : conflict.Tells mine last := by
  rw [between] at h
  split at h
  case isTrue => cases h
  case isFalse =>
    split at h
    case isTrue =>
      obtain rfl := List.mem_singleton.1 h
      exact tells_ofStates _ _ _
    case isFalse =>
      split at h
      case isTrue => exact tells_of_mem_ofWholes h
      case isFalse => exact tells_of_mem_ofUpdates h

/-! ## Places -/

theorem nodup_place_ofField (mine last : Change) (field : String) :
    ((ofField mine last field).conflicts.map Conflict.place).Nodup := by
  simp only [ofField]
  split
  · exact List.nodup_nil
  · split
    · exact List.nodup_nil
    · exact List.nodup_singleton _

theorem nodup_place_ofWholes (kind : Conflict.Kind) (mine last : Change) :
    ((ofWholes kind mine last).conflicts.map Conflict.place).Nodup := by
  rw [ofWholes]
  split
  · exact List.nodup_nil
  · exact List.nodup_singleton _

theorem nodup_place_ofUpdates (mine last : Change) : ((ofUpdates mine last).conflicts.map Conflict.place).Nodup := by
  rw [ofUpdates]
  split
  case h_1 =>
    rw [join, List.flatMap_map, List.map_flatMap, List.nodup_flatMap]
    refine ⟨fun field _ => nodup_place_ofField mine last field, (Dict.keys_nodup _).imp fun {a b} hne => ?_⟩
    refine List.disjoint_left.2 fun place hplace hother => ?_
    obtain ⟨told, htold, rfl⟩ := List.mem_map.1 hplace
    obtain ⟨other, hmem, hsame⟩ := List.mem_map.1 hother
    have hfield : other.field = told.field := congrArg Prod.snd hsame
    rw [(of_mem_ofField htold).2, (of_mem_ofField hmem).2] at hfield
    exact hne (Option.some.inj hfield).symm
  case h_2 => exact nodup_place_ofWholes _ mine last

theorem nodup_place_between (mine last : Change) : ((between mine last).conflicts.map Conflict.place).Nodup := by
  rw [between]
  split
  · exact List.nodup_nil
  · split
    · exact List.nodup_singleton _
    · split
      · exact nodup_place_ofWholes _ mine last
      · exact nodup_place_ofUpdates mine last

/-! ## Reported conflicts -/

theorem mem_onTarget_iff : conflict ∈ (onTarget ours theirs target).conflicts ↔
    ∃ mine last, mine.target = target ∧ last.target = target ∧ IsLatest mine ours ∧ IsLatest last theirs ∧
      conflict ∈ (between mine last).conflicts := by
  constructor
  · intro h
    rcases onTarget_cases ours theirs target with hnone | ⟨mine, last, hmine, hlast, hours, htheirs, heq⟩
    · cases hnone ▸ h
    · exact ⟨mine, last, hmine, hlast, hours, htheirs, heq ▸ h⟩
  · rintro ⟨mine, last, hmine, hlast, hours, htheirs, h⟩
    rwa [onTarget_eq hmine hlast hours htheirs]

theorem target_of_mem_onTarget (h : conflict ∈ (onTarget ours theirs target).conflicts) :
    conflict.target = target := by
  obtain ⟨mine, last, rfl, -, -, -, hfound⟩ := mem_onTarget_iff.1 h
  exact (tells_of_mem_between hfound).target

/-- A conflict is reported exactly if the latest changes of both sides on a target come to it. -/
theorem mem_conflicts_iff : conflict ∈ (ofStreams ours theirs).conflicts ↔
    ∃ mine last, mine.target = last.target ∧ IsLatest mine ours ∧ IsLatest last theirs ∧
      conflict ∈ (between mine last).conflicts := by
  rw [conflicts_eq, List.mem_flatMap]
  constructor
  · rintro ⟨target, -, hfound⟩
    obtain ⟨mine, last, rfl, hlast, hours, htheirs, h⟩ := mem_onTarget_iff.1 hfound
    exact ⟨mine, last, hlast.symm, hours, htheirs, h⟩
  · rintro ⟨mine, last, htarget, hours, htheirs, h⟩
    exact ⟨mine.target, Change.mem_targets.2 ⟨mine, hours.mem, rfl⟩,
      mem_onTarget_iff.2 ⟨mine, last, rfl, htarget.symm, hours, htheirs, h⟩⟩

theorem resolved_of_mem_conflicts (h : conflict ∈ (ofStreams ours theirs).conflicts) : conflict.resolved = none := by
  obtain ⟨mine, last, -, -, -, hfound⟩ := mem_conflicts_iff.1 h
  exact (tells_of_mem_between hfound).resolved

theorem nodup_place_onTarget (ours theirs : List Change) (target : String) :
    ((onTarget ours theirs target).conflicts.map Conflict.place).Nodup := by
  rcases onTarget_cases ours theirs target with hnone | ⟨mine, last, -, -, -, -, heq⟩
  · rw [hnone]
    exact List.nodup_nil
  · rw [heq]
    exact nodup_place_between mine last

/-- No field of a target is in two conflicts, and no target is in two as a whole. -/
theorem nodup_place_conflicts (ours theirs : List Change) :
    ((ofStreams ours theirs).conflicts.map Conflict.place).Nodup := by
  rw [conflicts_eq, List.map_flatMap, List.nodup_flatMap]
  refine ⟨fun target _ => nodup_place_onTarget ours theirs target, ?_⟩
  refine (Change.nodup_targets ours).imp fun {a b} hne => ?_
  refine List.disjoint_left.2 fun place hplace hother => ?_
  obtain ⟨told, htold, rfl⟩ := List.mem_map.1 hplace
  obtain ⟨other, hmem, hsame⟩ := List.mem_map.1 hother
  have htarget : other.target = told.target := congrArg Prod.fst hsame
  rw [target_of_mem_onTarget htold, target_of_mem_onTarget hmem] at htarget
  exact hne htarget.symm

theorem nodup_conflicts (ours theirs : List Change) : (ofStreams ours theirs).conflicts.Nodup :=
  (nodup_place_conflicts ours theirs).of_map

end Library

end Analysis

end VersionControl
