import Mathlib.Data.List.Induction
import VersionControl.Proofs.Change.Sort

/-!
# The latest change of a target

For each target detection keeps the change of the greatest time, the last in the stream among several of that
time. So the latest change of two streams in a row is the later of their latest ones, and sorting a stream
does not change it.
-/

namespace VersionControl.Change

/-- The change that detection keeps for a target. -/
def latestOn? (target : String) (changes : List Change) : Option Change :=
  (latest changes).find? (·.target = target)

/-- The later of two changes, the second if they are of one time. -/
def newer (a b : Change) : Change := if a.time ≤ b.time then b else a

/-- No change of the same target is later, and none of the same time follows in the stream. -/
structure IsLatest (change : Change) (changes : List Change) : Prop where
  greatest : ∀ c ∈ changes, c.target = change.target → c.time ≤ change.time
  last : (changes.filter fun c => c.target = change.target ∧ c.time = change.time).getLast? = some change

variable {target : String} {change : Change} {changes : List Change}

/-! ## One more change -/

theorem find?_keepLatest (target : String) (kept : List Change) (next : Change) :
    (keepLatest kept next).find? (·.target = target) =
      if next.target = target then (kept.find? (·.target = target)).merge newer (some next)
      else kept.find? (·.target = target) := by
  induction kept with
  | nil =>
      by_cases h : next.target = target <;> simp [keepLatest, h]
  | cons c rest ih =>
      simp only [keepLatest]
      by_cases hc : c.target = next.target
      · rw [if_pos hc]
        by_cases ht : next.target = target
        · have hct : c.target = target := hc.trans ht
          by_cases hle : c.time ≤ next.time <;> simp [newer, hct, ht, hle]
        · have hct : c.target ≠ target := hc ▸ ht
          by_cases hle : c.time ≤ next.time <;> simp [hct, ht, hle]
      · rw [if_neg hc]
        by_cases hct : c.target = target
        · have ht : next.target ≠ target := fun h => hc (hct.trans h.symm)
          simp [hct, ht]
        · simp [hct, ih]

theorem latest_concat (changes : List Change) (next : Change) :
    latest (changes ++ [next]) = keepLatest (latest changes) next :=
  List.foldl_concat _ _ _ _

@[simp] theorem latestOn?_nil (target : String) : latestOn? target [] = none := rfl

theorem latestOn?_concat (target : String) (changes : List Change) (next : Change) :
    latestOn? target (changes ++ [next]) =
      if next.target = target then (latestOn? target changes).merge newer (some next)
      else latestOn? target changes := by
  rw [latestOn?, latest_concat]
  exact find?_keepLatest target _ next

theorem latestOn?_eq_none_iff : latestOn? target changes = none ↔ ∀ c ∈ changes, c.target ≠ target := by
  induction changes using List.reverseRecOn with
  | nil => simp
  | append_singleton changes next ih =>
      rw [latestOn?_concat]
      by_cases h : next.target = target
      · simp only [if_pos h, Option.merge_eq_none_iff, reduceCtorEq, and_false, false_iff]
        exact fun hall => hall next (by simp) h
      · rw [if_neg h, ih]
        simp only [List.mem_append, List.mem_singleton]
        constructor
        · rintro hall c (hc | rfl)
          · exact hall c hc
          · exact h
        · exact fun hall c hc => hall c (.inl hc)

/-! ## The latest change by its place in the stream -/

theorem IsLatest.mem (h : IsLatest change changes) : change ∈ changes :=
  (List.mem_filter.1 (List.mem_of_getLast? h.last)).1

theorem IsLatest.eq {a b : Change} (ha : IsLatest a changes) (hb : IsLatest b changes)
    (htarget : a.target = b.target) : a = b := by
  have htime : a.time = b.time :=
    Int.le_antisymm (hb.greatest a ha.mem htarget) (ha.greatest b hb.mem htarget.symm)
  have hlast := ha.last
  rw [htarget, htime, hb.last] at hlast
  exact (Option.some.inj hlast).symm

theorem IsLatest.concat_of_other {next : Change} (h : IsLatest change changes)
    (hnext : next.target ≠ change.target ∨ next.time < change.time) : IsLatest change (changes ++ [next]) where
  greatest c hc htarget := by
    rcases List.mem_append.1 hc with hc | hc
    · exact h.greatest c hc htarget
    · rw [List.mem_singleton] at hc
      subst hc
      rcases hnext with hne | hlt
      · exact absurd htarget hne
      · omega
  last := by
    have hout : ¬ (next.target = change.target ∧ next.time = change.time) := by
      rintro ⟨htarget, htime⟩
      rcases hnext with hne | hlt
      · exact hne htarget
      · omega
    rw [List.filter_append, List.filter_cons_of_neg (by simpa using hout), List.filter_nil, List.append_nil]
    exact h.last

theorem IsLatest.of_last {next : Change}
    (h : ∀ c ∈ changes, c.target = next.target → c.time ≤ next.time) : IsLatest next (changes ++ [next]) where
  greatest c hc htarget := by
    rcases List.mem_append.1 hc with hc | hc
    · exact h c hc htarget
    · rw [List.mem_singleton] at hc
      exact Int.le_of_eq (congrArg time hc)
  last := by simp [List.filter_append]

theorem isLatest_of_latestOn? (h : latestOn? target changes = some change) :
    change.target = target ∧ IsLatest change changes := by
  induction changes using List.reverseRecOn generalizing change with
  | nil => simp at h
  | append_singleton changes next ih =>
      rw [latestOn?_concat] at h
      split at h
      case isFalse hnext =>
        obtain ⟨ht, hlatest⟩ := ih h
        exact ⟨ht, hlatest.concat_of_other (.inl (ht ▸ hnext))⟩
      case isTrue hnext =>
        cases hkept : latestOn? target changes with
        | none =>
            have hnone := latestOn?_eq_none_iff.1 hkept
            rw [hkept, Option.merge_none_left, Option.some.injEq] at h
            subst h
            exact ⟨hnext, .of_last fun c hc htarget => absurd (htarget.trans hnext) (hnone c hc)⟩
        | some kept =>
            obtain ⟨ht, hlatest⟩ := ih hkept
            rw [hkept, Option.merge_some_some, Option.some.injEq, newer] at h
            split at h
            case isTrue hle =>
              subst h
              refine ⟨hnext, .of_last fun c hc htarget => ?_⟩
              have := hlatest.greatest c hc (htarget.trans (hnext.trans ht.symm))
              omega
            case isFalse hlt =>
              subst h
              exact ⟨ht, hlatest.concat_of_other (.inr (by omega))⟩

theorem latestOn?_eq_some_iff :
    latestOn? target changes = some change ↔ change.target = target ∧ IsLatest change changes := by
  refine ⟨isLatest_of_latestOn?, ?_⟩
  rintro ⟨rfl, hlatest⟩
  cases hfound : latestOn? change.target changes with
  | none => exact absurd rfl (latestOn?_eq_none_iff.1 hfound change hlatest.mem)
  | some found =>
      obtain ⟨htarget, hfoundLatest⟩ := isLatest_of_latestOn? hfound
      rw [hfoundLatest.eq hlatest htarget]

/-! ## Rewritten streams -/

/-- Which change is the latest depends on the changes of each target and time, in their order, and on nothing else. -/
theorem isLatest_congr {others : List Change}
    (h : ∀ (target : String) (time : Int),
      changes.filter (fun c => c.target = target ∧ c.time = time) =
        others.filter (fun c => c.target = target ∧ c.time = time)) :
    IsLatest change changes ↔ IsLatest change others := by
  have hmem (c : Change) : c ∈ changes ↔ c ∈ others := by
    simpa using congrArg (c ∈ ·) (h c.target c.time)
  constructor <;> intro hlatest
  · exact ⟨fun c hc => hlatest.greatest c ((hmem c).2 hc), h change.target change.time ▸ hlatest.last⟩
  · exact ⟨fun c hc => hlatest.greatest c ((hmem c).1 hc), h change.target change.time ▸ hlatest.last⟩

theorem isLatest_insert_older {front back : List Change} {older later : Change} (hmem : later ∈ front ++ back)
    (htarget : older.target = later.target) (htime : older.time < later.time) :
    IsLatest change (front ++ older :: back) ↔ IsLatest change (front ++ back) := by
  have hsub : ∀ c ∈ front ++ back, c ∈ front ++ older :: back := fun c hc => by
    rw [List.mem_append] at hc ⊢
    exact hc.imp_right (List.mem_cons_of_mem older)
  have hbelow (h : ∀ c ∈ front ++ back, c.target = change.target → c.time ≤ change.time)
      (hsame : older.target = change.target) : older.time < change.time := by
    have := h later hmem (htarget.symm.trans hsame)
    omega
  have hfilter (h : ∀ c ∈ front ++ back, c.target = change.target → c.time ≤ change.time) :
      (front ++ older :: back).filter (fun c => c.target = change.target ∧ c.time = change.time) =
        (front ++ back).filter (fun c => c.target = change.target ∧ c.time = change.time) := by
    have hout : ¬ (older.target = change.target ∧ older.time = change.time) := fun hsame => by
      have := hbelow h hsame.1
      omega
    rw [List.filter_append, List.filter_append, List.filter_cons_of_neg (by simpa using hout)]
  constructor <;> intro hlatest
  · have hgreatest := fun c hc => hlatest.greatest c (hsub c hc)
    exact ⟨hgreatest, hfilter hgreatest ▸ hlatest.last⟩
  · refine ⟨fun c hc hsame => ?_, (hfilter hlatest.greatest).symm ▸ hlatest.last⟩
    rcases List.mem_append.1 hc with hc | hc
    · exact hlatest.greatest c (List.mem_append_left _ hc) hsame
    · rcases List.mem_cons.1 hc with rfl | hc
      · exact Int.le_of_lt (hbelow hlatest.greatest hsame)
      · exact hlatest.greatest c (List.mem_append_right _ hc) hsame

theorem latestOn?_congr {others : List Change} (h : ∀ change, IsLatest change changes ↔ IsLatest change others)
    (target : String) : latestOn? target changes = latestOn? target others := by
  ext change
  rw [latestOn?_eq_some_iff, latestOn?_eq_some_iff, h]

/-! ## Sorting and appending -/

theorem isLatest_sort : IsLatest change (sort changes) ↔ IsLatest change changes :=
  isLatest_congr fun target time => by simp only [Bool.decide_and, ← List.filter_filter, filter_time_sort]

theorem latestOn?_sort (target : String) (changes : List Change) :
    latestOn? target (sort changes) = latestOn? target changes :=
  latestOn?_congr (fun _ => isLatest_sort) target

theorem newer_assoc (a b c : Change) : newer (newer a b) c = newer a (newer b c) := by
  unfold newer
  grind

theorem latestOn?_append (target : String) (xs ys : List Change) :
    latestOn? target (xs ++ ys) = (latestOn? target xs).merge newer (latestOn? target ys) := by
  have : Std.Associative newer := ⟨newer_assoc⟩
  induction ys using List.reverseRecOn with
  | nil => simp
  | append_singleton ys next ih =>
      rw [← List.append_assoc, latestOn?_concat, latestOn?_concat, ih]
      split
      · exact (inferInstance : Std.Associative (Option.merge newer)).assoc _ _ _
      · rfl

end VersionControl.Change
