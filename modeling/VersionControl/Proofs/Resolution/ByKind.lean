import VersionControl.Resolution.Strategy

/-!
# Strategies by kind

Each conflict is resolved by the strategy for its kind. So the conflicts of one kind fare as they do without the others
between them, and no other list of resolutions has this of every kind.
-/

namespace VersionControl.Strategy

variable {kind : Conflict.Kind} {c : Conflict} {conflicts : List Conflict}
variable {r : Resolution} {rs rivals : List Resolution}

/-! ## The resolutions of one kind -/

/-- The resolutions that stand where the conflicts of a kind do. -/
def ofKind (kind : Conflict.Kind) (conflicts : List Conflict) (rs : List Resolution) : List Resolution :=
  ((conflicts.zip rs).filter (·.1.kind = kind)).map (·.2)

theorem ofKind_cons_self (c : Conflict) (conflicts : List Conflict) (r : Resolution) (rs : List Resolution) :
    ofKind c.kind (c :: conflicts) (r :: rs) = r :: ofKind c.kind conflicts rs := by
  simp [ofKind]

theorem ofKind_cons_of_ne (h : c.kind ≠ kind) : ofKind kind (c :: conflicts) (r :: rs) = ofKind kind conflicts rs := by
  simp [ofKind, h]

theorem ofKind_map (kind : Conflict.Kind) (conflicts : List Conflict) (f : Conflict → Resolution) :
    ofKind kind conflicts (conflicts.map f) = (conflicts.filter (·.kind = kind)).map f := by
  induction conflicts with
  | nil => rfl
  | cons c conflicts ih =>
      by_cases h : c.kind = kind
      · subst h
        rw [List.map_cons, ofKind_cons_self, ih, List.filter_cons_of_pos (by simp), List.map_cons]
      · rw [List.map_cons, ofKind_cons_of_ne h, ih, List.filter_cons_of_neg (by simpa using h)]

/-- Where two lists of resolutions of the same conflicts differ, they differ on some kind. -/
theorem eq_of_ofKind_eq (hrs : rs.length = conflicts.length) (hrivals : rivals.length = conflicts.length)
    (h : ∀ kind, ofKind kind conflicts rs = ofKind kind conflicts rivals) : rs = rivals := by
  induction conflicts generalizing rs rivals with
  | nil => rw [List.length_eq_zero_iff.mp hrs, List.length_eq_zero_iff.mp hrivals]
  | cons c conflicts ih =>
      obtain ⟨r, rs, rfl⟩ := List.exists_cons_of_length_eq_add_one hrs
      obtain ⟨rival, rivals, rfl⟩ := List.exists_cons_of_length_eq_add_one hrivals
      -- The heads are the first resolutions of one and the same kind.
      have hheads := h c.kind
      rw [ofKind_cons_self, ofKind_cons_self, List.cons.injEq] at hheads
      obtain ⟨rfl, hkind⟩ := hheads
      have hrest : rs = rivals := by
        refine ih (Nat.succ.inj hrs) (Nat.succ.inj hrivals) fun kind => ?_
        by_cases hother : c.kind = kind
        · rw [← hother, hkind]
        · rw [← ofKind_cons_of_ne hother, h kind, ofKind_cons_of_ne hother]
      rw [hrest]

/-! ## Kind by kind -/

/-- The strategy for the conflicts of a kind. -/
def forKind (table : Conflict.Kind → Option Strategy) (others : Strategy) (kind : Conflict.Kind) : Strategy :=
  (table kind).getD others

section Library

variable [ValueLibrary] (table : Conflict.Kind → Option Strategy) (others : Strategy)

/-- A resolution stands in the place of each conflict, and those of each kind are what the conflicts of that kind come
to by themselves, all by one strategy. -/
structure IsKindByKind (strategies : Conflict.Kind → Strategy) (conflicts : List Conflict) (rs : List Resolution) :
    Prop where
  length_eq : rs.length = conflicts.length
  ofKind_eq (kind : Conflict.Kind) :
    ofKind kind conflicts rs = applyAll (strategies kind) (conflicts.filter (·.kind = kind))

theorem IsKindByKind.unique {strategies : Conflict.Kind → Strategy} (h : IsKindByKind strategies conflicts rs)
    (hrivals : IsKindByKind strategies conflicts rivals) : rs = rivals :=
  eq_of_ofKind_eq h.length_eq hrivals.length_eq fun kind => (h.ofKind_eq kind).trans (hrivals.ofKind_eq kind).symm

theorem isKindByKind_applyByKind (conflicts : List Conflict) :
    IsKindByKind (forKind table others) conflicts (applyByKind table others conflicts) where
  length_eq := List.length_map _
  ofKind_eq kind := by
    rw [applyByKind, ofKind_map, applyAll]
    refine List.map_congr_left fun c hmem => ?_
    have hkind : c.kind = kind := of_decide_eq_true (List.mem_filter.mp hmem).2
    rw [hkind, forKind]

theorem isKindByKind_iff :
    IsKindByKind (forKind table others) conflicts rs ↔ rs = applyByKind table others conflicts := by
  constructor
  · exact fun h => h.unique (isKindByKind_applyByKind table others conflicts)
  · rintro rfl
    exact isKindByKind_applyByKind table others conflicts

theorem getElem?_applyByKind (conflicts : List Conflict) (place : Nat) :
    (applyByKind table others conflicts)[place]? =
      conflicts[place]?.map fun c => apply c (forKind table others c.kind) :=
  List.getElem?_map

/-- To resolve conflicts by their kinds is to resolve those of each kind by themselves. What stands in a place hangs on
the conflict there and on no other one, and where all kinds share a strategy they do not matter. -/
theorem applyByKind_partitions (conflicts : List Conflict) :
    (∀ rs, IsKindByKind (forKind table others) conflicts rs ↔ rs = applyByKind table others conflicts) ∧
      (∀ (elsewhere : List Conflict) (place placeThere : Nat), conflicts[place]? = elsewhere[placeThere]? →
        (applyByKind table others conflicts)[place]? = (applyByKind table others elsewhere)[placeThere]?) ∧
      ∀ strategy, (∀ c ∈ conflicts, forKind table others c.kind = strategy) →
        applyByKind table others conflicts = applyAll strategy conflicts := by
  refine ⟨fun rs => isKindByKind_iff table others, fun elsewhere place placeThere hsame => ?_, fun strategy hall => ?_⟩
  · rw [getElem?_applyByKind, getElem?_applyByKind, hsame]
  · refine List.map_congr_left fun c hmem => ?_
    rw [← hall c hmem, forKind]

end Library

/-- Two kinds share a strategy, one of them because none is set for it, and a rule of one's own for the third stands
between them. The conflicts of the two kinds come to the same as by that strategy. -/
theorem applyByKind_partitions_of_shared_strategy :
    let update : Conflict := { kind := .concurrentUpdate, target := "posts:a", ours := some ⟨"draft"⟩ }
    let deletion : Conflict := { kind := .deleteUpdate, target := "posts:b", theirs := some ⟨"final"⟩ }
    let creation : Conflict := { kind := .createCreate, target := "posts:c", ours := some ⟨"new"⟩ }
    let shared : Strategy := .fallback [.concatenate " ", .nonNull]
    let table : Conflict.Kind → Option Strategy
      | .concurrentUpdate => some shared
      | .deleteUpdate => some (.custom fun _ => { isManual := true })
      | .createCreate => none
    let conflicts := [update, deletion, creation, update]
    (∀ c ∈ [update, creation], forKind table shared c.kind = shared) ∧
      applyByKind table shared [update, creation] = applyAll shared [update, creation] ∧
      conflicts[2]? = [update, creation][1]? ∧
      (applyByKind table shared conflicts)[2]? = (applyAll shared [update, creation])[1]? ∧
      ofKind .concurrentUpdate conflicts (applyByKind table shared conflicts) = applyAll shared [update, update] := by
  intro update deletion creation shared table conflicts
  have hshared : ∀ c ∈ [update, creation], forKind table shared c.kind = shared :=
    List.forall_mem_cons.mpr ⟨rfl, List.forall_mem_singleton.mpr rfl⟩
  have htwo := (applyByKind_partitions table shared [update, creation]).2.2 shared hshared
  obtain ⟨hkinds, hplaces, -⟩ := applyByKind_partitions table shared conflicts
  refine ⟨hshared, htwo, rfl, ?_, ((hkinds _).mpr rfl).ofKind_eq .concurrentUpdate⟩
  rw [← htwo]
  exact hplaces [update, creation] 2 1 rfl

end VersionControl.Strategy
