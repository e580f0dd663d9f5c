import VersionControl.Proofs.Resolution.Fallback

/-!
# Who answers

A strategy asks the rules at its leaves, one after the other, and hands on the answer of the last one that it asks as
it is. So where no rule of one's own is asked and no two texts or arrays are joined, it picks one of the two values or
none.
-/

namespace VersionControl.Strategy

open Resolution (isSettled_picked isSettled_manual)
open ValueLibrary (elements? string?)

/-! ## Picks -/

/-- A resolution of the conflict itself that makes no value up: it picks one of the two sides, unless it leaves the
decision open. -/
structure IsPick (c : Conflict) (r : Resolution) : Prop where
  conflict : r.conflict = some c
  value : r.isManual = false → r.value = c.ours ∨ r.value = c.theirs
  label : r.isManual = false → r.label ∈ ["ours", "theirs", "latest", "preference", "non-null"]

section Picks

variable {c : Conflict} {value : Option Value} {label explanation : String}

theorem isPick_of_manual : IsPick c (.manual c label explanation) :=
  ⟨rfl, nofun, nofun⟩

theorem isPick_of_picked (hvalue : value = c.ours ∨ value = c.theirs)
    (hlabel : label ∈ ["ours", "theirs", "latest", "preference", "non-null"]) :
    IsPick c (.picked c value label explanation) :=
  ⟨rfl, fun _ => hvalue, fun _ => hlabel⟩

theorem isPick_settle_picked (hvalue : value = c.ours ∨ value = c.theirs)
    (hlabel : label ∈ ["ours", "theirs", "latest", "preference", "non-null"]) :
    IsPick c (.settle c (.picked c value label explanation)) := by
  have hnamed : label ≠ "" := ne_of_mem_of_not_mem hlabel (by decide)
  rw [(isSettled_picked hnamed).settle_eq]
  exact isPick_of_picked hvalue hlabel

theorem isPick_named (c : Conflict) (strategy : NamedStrategy) : IsPick c (strategy.apply c) := by
  cases strategy with
  | ours => exact isPick_of_picked (.inl rfl) (by decide)
  | theirs => exact isPick_of_picked (.inr rfl) (by decide)
  | latest =>
      by_cases hours : c.ourChange.time ≥ c.theirChange.time
      · rw [NamedStrategy.apply, if_pos hours]
        exact isPick_of_picked (.inl rfl) (by decide)
      · rw [NamedStrategy.apply, if_neg hours]
        exact isPick_of_picked (.inr rfl) (by decide)
  | manual => exact isPick_of_manual

end Picks

/-! ## The rules that are asked -/

/-- A rule that asks no other. -/
def IsLeaf : Strategy → Prop
  | .fallback members => members = []
  | .byField _ _ => False
  | _ => True

mutual
/-- The leaves of a strategy; a fallback without members is one itself. -/
def leaves : Strategy → List Strategy
  | .fallback members => if members.isEmpty then [.fallback members] else leavesOfMembers members
  | .byField table others => leavesOfTable table ++ leaves others
  | strategy => [strategy]

def leavesOfMembers : List Strategy → List Strategy
  | [] => []
  | strategy :: rest => leaves strategy ++ leavesOfMembers rest

def leavesOfTable : List (String × Strategy) → List Strategy
  | [] => []
  | (_, strategy) :: rest => leaves strategy ++ leavesOfTable rest
end

section Library

variable [ValueLibrary]

mutual
/-- The leaves that a strategy asks about a conflict, in order. -/
def consulted (c : Conflict) : Strategy → List Strategy
  | .fallback members => if members.isEmpty then [.fallback members] else consultedFirst c members
  | .byField table others => (consultedField c table).getD (consulted c others)
  | strategy => [strategy]

/-- The leaves that are asked until one of the members decides. -/
def consultedFirst (c : Conflict) : List Strategy → List Strategy
  | [] => []
  | strategy :: rest => consulted c strategy ++ if (apply c strategy).isManual then consultedFirst c rest else []

def consultedField (c : Conflict) : List (String × Strategy) → Option (List Strategy)
  | [] => none
  | (field, strategy) :: rest => if c.field = some field then some (consulted c strategy) else consultedField c rest
end

mutual
/-- A strategy asks none but its own leaves. -/
theorem consulted_subset_leaves (c : Conflict) : (strategy : Strategy) → consulted c strategy ⊆ leaves strategy
  | .fallback members => by
      by_cases hempty : members = []
      · simp [consulted, leaves, hempty]
      · simpa [consulted, leaves, hempty] using consultedFirst_subset_leaves c members
  | .byField table others => by
      rw [consulted, leaves]
      cases hasked : consultedField c table with
      | none => exact List.subset_append_of_subset_right _ (consulted_subset_leaves c others)
      | some asked => exact List.subset_append_of_subset_left _ (consultedField_subset_leaves c table asked hasked)
  | .named _ => List.Subset.refl _
  | .prefer _ => List.Subset.refl _
  | .nonNull => List.Subset.refl _
  | .concatenate _ => List.Subset.refl _
  | .mergeArrays => List.Subset.refl _
  | .custom _ => List.Subset.refl _

theorem consultedFirst_subset_leaves (c : Conflict) : (members : List Strategy) →
    consultedFirst c members ⊆ leavesOfMembers members
  | [] => List.Subset.refl _
  | strategy :: rest => by
      rw [consultedFirst, leavesOfMembers]
      refine List.append_subset.mpr ⟨?_, ?_⟩
      · exact List.subset_append_of_subset_left _ (consulted_subset_leaves c strategy)
      · split
        case isTrue => exact List.subset_append_of_subset_right _ (consultedFirst_subset_leaves c rest)
        case isFalse => exact List.nil_subset _

theorem consultedField_subset_leaves (c : Conflict) : (table : List (String × Strategy)) →
    ∀ asked, consultedField c table = some asked → asked ⊆ leavesOfTable table
  | [], _, h => by cases h
  | (field, strategy) :: rest, asked, h => by
      rw [consultedField] at h
      rw [leavesOfTable]
      split at h
      case isTrue =>
        cases h
        exact List.subset_append_of_subset_left _ (consulted_subset_leaves c strategy)
      case isFalse =>
        exact List.subset_append_of_subset_right _ (consultedField_subset_leaves c rest asked h)
end

/-! ## The answer of the last one -/

mutual
/-- The answer of a strategy is that of the leaf that it asks last. -/
theorem exists_last_consulted (c : Conflict) : (strategy : Strategy) →
    ∃ leaf, (consulted c strategy).getLast? = some leaf ∧ leaf.IsLeaf ∧ apply c strategy = apply c leaf
  | .fallback members => by
      by_cases hempty : members = []
      · exact ⟨.fallback members, by simp [consulted, hempty], hempty, rfl⟩
      · obtain ⟨leaf, hlast, hleaf, hfirst⟩ := exists_last_consultedFirst c members hempty
        refine ⟨leaf, by simpa [consulted, hempty] using hlast, hleaf, ?_⟩
        rw [apply, hfirst, Option.getD_some, settle_apply]
  | .byField table others => by
      rcases exists_last_consultedField c table with ⟨hasked, happly⟩ | ⟨leaves, leaf, hasked, hlast, hleaf, happly⟩
      · obtain ⟨leaf, hlast, hleaf, hothers⟩ := exists_last_consulted c others
        refine ⟨leaf, by rw [consulted, hasked, Option.getD_none, hlast], hleaf, ?_⟩
        rw [apply, happly, Option.getD_none, hothers, settle_apply]
      · refine ⟨leaf, by rw [consulted, hasked, Option.getD_some, hlast], hleaf, ?_⟩
        rw [apply, happly, Option.getD_some, settle_apply]
  | .named strategy => ⟨.named strategy, rfl, trivial, rfl⟩
  | .prefer ours => ⟨.prefer ours, rfl, trivial, rfl⟩
  | .nonNull => ⟨.nonNull, rfl, trivial, rfl⟩
  | .concatenate separator => ⟨.concatenate separator, rfl, trivial, rfl⟩
  | .mergeArrays => ⟨.mergeArrays, rfl, trivial, rfl⟩
  | .custom resolver => ⟨.custom resolver, rfl, trivial, rfl⟩

theorem exists_last_consultedFirst (c : Conflict) : (members : List Strategy) → members ≠ [] →
    ∃ leaf, (consultedFirst c members).getLast? = some leaf ∧ leaf.IsLeaf ∧
      applyFirst c members = some (apply c leaf)
  | [], h => absurd rfl h
  | strategy :: rest, _ => by
      obtain ⟨leaf, hlast, hleaf, happly⟩ := exists_last_consulted c strategy
      cases hmanual : (apply c strategy).isManual with
      | false => exact ⟨leaf, by simp [consultedFirst, hmanual, hlast], hleaf, by simp [applyFirst, hmanual, ← happly]⟩
      | true =>
          by_cases hrest : rest = []
          · subst hrest
            exact ⟨leaf, by simp [consultedFirst, hlast], hleaf, by simp [applyFirst, hmanual, ← happly]⟩
          · obtain ⟨next, hnext, hnextLeaf, hfirst⟩ := exists_last_consultedFirst c rest hrest
            exact ⟨next, by simp [consultedFirst, hmanual, hnext], hnextLeaf, by simp [applyFirst, hmanual, hfirst]⟩

theorem exists_last_consultedField (c : Conflict) : (table : List (String × Strategy)) →
    (consultedField c table = none ∧ applyField c table = none) ∨
      ∃ leaves leaf, consultedField c table = some leaves ∧ leaves.getLast? = some leaf ∧ leaf.IsLeaf ∧
        applyField c table = some (apply c leaf)
  | [] => .inl ⟨rfl, rfl⟩
  | (field, strategy) :: rest => by
      by_cases hfield : c.field = some field
      · obtain ⟨leaf, hlast, hleaf, happly⟩ := exists_last_consulted c strategy
        exact .inr ⟨consulted c strategy, leaf, by rw [consultedField, if_pos hfield], hlast, hleaf,
          by rw [applyField, if_pos hfield, happly]⟩
      · rw [consultedField, applyField, if_neg hfield, if_neg hfield]
        exact exists_last_consultedField c rest
end

/-! ## Values that are picked -/

variable {c : Conflict} {strategy : Strategy}

/-- Values are joined only if both are texts. -/
theorem joined_of_missing (h : c.ours.bind string? = none ∨ c.theirs.bind string? = none) (separator : String) :
    joined separator c =
      .manual c "concatenate" ("Cannot concatenate non-string values for " ++ c.location) := by
  rw [joined]
  split
  case h_1 ours theirs hours htheirs =>
    rcases h with hmissing | hmissing
    · cases hours.symm.trans hmissing
    · cases htheirs.symm.trans hmissing
  case h_2 => rfl

/-- And only if both are arrays. -/
theorem merged_of_missing (h : c.ours.bind elements? = none ∨ c.theirs.bind elements? = none) :
    merged c = .manual c "array-merge" ("Cannot merge non-array values for " ++ c.location) := by
  rw [merged]
  split
  case h_1 ours theirs hours htheirs =>
    rcases h with hmissing | hmissing
    · cases hours.symm.trans hmissing
    · cases htheirs.symm.trans hmissing
  case h_2 => rfl

/-- A leaf that is no rule of one's own picks a side, or joins two texts or two arrays. -/
theorem isPick_leaf (hleaf : strategy.IsLeaf) (hcustom : ∀ resolver, strategy ≠ .custom resolver)
    (hjoined : ∀ separator, strategy = .concatenate separator →
      c.ours.bind string? = none ∨ c.theirs.bind string? = none)
    (hmerged : strategy = .mergeArrays → c.ours.bind elements? = none ∨ c.theirs.bind elements? = none) :
    IsPick c (apply c strategy) := by
  cases strategy with
  | named strategy => exact isPick_named c strategy
  | fallback members =>
      obtain rfl : members = [] := hleaf
      rw [apply_fallback]
      exact isPick_of_manual
  | byField table others => cases hleaf
  | prefer ours =>
      rw [apply, preferred]
      split
      · exact isPick_settle_picked (.inl rfl) (by decide)
      · exact isPick_settle_picked (.inr rfl) (by decide)
  | nonNull =>
      rw [apply, present]
      split
      · exact isPick_settle_picked (.inr rfl) (by decide)
      · exact isPick_settle_picked (.inl rfl) (by decide)
  | concatenate separator =>
      rw [apply, joined_of_missing (hjoined separator rfl), (isSettled_manual (by decide)).settle_eq]
      exact isPick_of_manual
  | mergeArrays =>
      rw [apply, merged_of_missing (hmerged rfl), (isSettled_manual (by decide)).settle_eq]
      exact isPick_of_manual
  | custom resolver => exact absurd rfl (hcustom resolver)

/-- What is asked alone matters: leaves that nobody gets to may be of any kind. -/
theorem isPick_of_consulted (hcustom : ∀ resolver, .custom resolver ∉ consulted c strategy)
    (hjoined : ∀ separator, .concatenate separator ∈ consulted c strategy →
      c.ours.bind string? = none ∨ c.theirs.bind string? = none)
    (hmerged : .mergeArrays ∈ consulted c strategy →
      c.ours.bind elements? = none ∨ c.theirs.bind elements? = none) :
    IsPick c (apply c strategy) := by
  obtain ⟨leaf, hlast, hleaf, happly⟩ := exists_last_consulted c strategy
  have hmem : leaf ∈ consulted c strategy := List.mem_of_getLast? hlast
  rw [happly]
  refine isPick_leaf hleaf (fun resolver heq => ?_) (fun separator heq => ?_) fun heq => ?_
  · exact hcustom resolver (heq ▸ hmem)
  · exact hjoined separator (heq ▸ hmem)
  · exact hmerged (heq ▸ hmem)

/-- A strategy with no rule of one's own at its leaves picks one of the two values or leaves the decision open, however
it is put together, unless it gets to join two texts or two arrays. -/
theorem isPick_apply (hcustom : ∀ resolver, .custom resolver ∉ leaves strategy)
    (hjoined : ∀ separator, .concatenate separator ∈ consulted c strategy →
      c.ours.bind string? = none ∨ c.theirs.bind string? = none)
    (hmerged : .mergeArrays ∈ consulted c strategy →
      c.ours.bind elements? = none ∨ c.theirs.bind elements? = none) :
    IsPick c (apply c strategy) :=
  isPick_of_consulted (fun resolver hasked => hcustom resolver (consulted_subset_leaves c strategy hasked)) hjoined
    hmerged

end Library

/-- The rule for the field gives up, and the next one decides, so that nobody gets to the last. -/
theorem isPick_apply_of_nested_fallback :
    let c : Conflict := { kind := .concurrentUpdate, target := "posts:p", field := some "title", theirs := some ⟨"b"⟩ }
    let strategy : Strategy := .fallback [.byField [("body", .named .ours), ("title", .concatenate " ")] .mergeArrays,
      .fallback [.nonNull, .prefer fun _ _ => true]]
    (∀ resolver, .custom resolver ∉ leaves strategy) ∧
      c.ours.bind string? = none ∧ c.ours.bind elements? = none ∧
      (apply c strategy).isManual = false ∧ (apply c strategy).conflict = some c ∧
      ((apply c strategy).value = c.ours ∨ (apply c strategy).value = c.theirs) := by
  intro c strategy
  have hleaves : leaves strategy =
      [.named .ours, .concatenate " ", .mergeArrays, .nonNull, .prefer fun _ _ => true] := rfl
  have hcustom (resolver : Conflict → Resolution) : .custom resolver ∉ leaves strategy := by simp [hleaves]
  have hdecided : (apply c strategy).isManual = false := by decide
  have hpick : IsPick c (apply c strategy) := isPick_apply hcustom (fun _ _ => .inl rfl) fun _ => .inl rfl
  exact ⟨hcustom, rfl, rfl, hdecided, hpick.conflict, hpick.value hdecided⟩

end VersionControl.Strategy
