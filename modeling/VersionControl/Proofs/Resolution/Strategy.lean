import VersionControl.Resolution.Strategy

/-!
# What strategies answer

A resolution is settled when nothing is left to fill in or to take away. Settling gives such a resolution, and a
strategy answers with one: a named strategy leaves nothing open, and every other one settles in the end what its
members or its resolver gave.
-/

namespace VersionControl

namespace Resolution

/-- What is expected of every resolution: there is no value where the decision is left open, and the label and
the conflict are told. -/
structure IsSettled (r : Resolution) : Prop where
  value_eq_none : r.isManual = true → r.value = none
  label_ne_empty : r.label ≠ ""
  conflict_isSome : r.conflict.isSome = true

/-- Nothing is asked of the resolution that is settled. -/
theorem isSettled_settle (c : Conflict) (r : Resolution) : (settle c r).IsSettled where
  value_eq_none hmanual := if_pos hmanual
  label_ne_empty := by
    simp only [settle]
    split
    case isTrue => decide
    case isFalse hlabel => exact hlabel
  conflict_isSome := by simp [settle]

theorem IsSettled.settle_eq {r : Resolution} (h : r.IsSettled) (c : Conflict) : settle c r = r := by
  have hvalue : (if r.isManual then none else r.value) = r.value := by
    split
    case isTrue hmanual => exact (h.value_eq_none hmanual).symm
    case isFalse => rfl
  have hconflict : r.conflict.or (some c) = r.conflict := Option.or_of_isSome h.conflict_isSome
  rw [settle, if_neg h.label_ne_empty, hvalue, hconflict]

theorem isSettled_picked {c : Conflict} {value : Option Value} {label explanation : String} (hlabel : label ≠ "") :
    (picked c value label explanation).IsSettled :=
  ⟨nofun, hlabel, rfl⟩

theorem isSettled_manual {c : Conflict} {label explanation : String} (hlabel : label ≠ "") :
    (manual c label explanation).IsSettled :=
  ⟨fun _ => rfl, hlabel, rfl⟩

theorem settle_settle (c : Conflict) (r : Resolution) : settle c (settle c r) = settle c r :=
  (isSettled_settle c r).settle_eq c

theorem allComplete_iff (rs : List Resolution) : allComplete rs = true ↔ unresolved rs = [] := by
  simp [allComplete, unresolved, List.filter_eq_nil_iff]

end Resolution

theorem NamedStrategy.isSettled (c : Conflict) (strategy : NamedStrategy) : (strategy.apply c).IsSettled := by
  cases strategy with
  | ours => exact Resolution.isSettled_picked (by decide)
  | theirs => exact Resolution.isSettled_picked (by decide)
  | latest => exact Resolution.isSettled_picked (by decide)
  | manual => exact Resolution.isSettled_manual (by decide)

namespace Strategy

/-- What a strategy answers is settled already, whatever its members answer. -/
theorem settle_apply [ValueLibrary] (c : Conflict) (strategy : Strategy) :
    Resolution.settle c (apply c strategy) = apply c strategy := by
  cases strategy with
  | named strategy => rw [apply, (strategy.isSettled c).settle_eq]
  | fallback members => rw [apply, Resolution.settle_settle]
  | byField table others => rw [apply, Resolution.settle_settle]
  | prefer ours => rw [apply, Resolution.settle_settle]
  | nonNull => rw [apply, Resolution.settle_settle]
  | concatenate separator => rw [apply, Resolution.settle_settle]
  | mergeArrays => rw [apply, Resolution.settle_settle]
  | custom resolver => rw [apply, Resolution.settle_settle]

/-- Every strategy answers every conflict with a settled resolution. -/
theorem isSettled_apply [ValueLibrary] (c : Conflict) (strategy : Strategy) : (apply c strategy).IsSettled := by
  rw [← settle_apply]
  exact Resolution.isSettled_settle c _

/-- A resolver names a value but leaves the decision open, and leaves all else out. -/
example [ValueLibrary] (c : Conflict) :
    apply c (.fallback [.byField [] (.custom fun _ => { value := some ⟨"state"⟩, isManual := true })]) =
      { label := "custom", isManual := true, conflict := some c } := by
  rfl

end Strategy

end VersionControl
