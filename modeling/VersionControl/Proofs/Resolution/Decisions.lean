import Mathlib.Data.List.Induction
import VersionControl.Proofs.Resolution.Strategy

/-!
# Human decisions

Decisions on the resolutions of a merge, one after the other. Those on one place amount to the last of them, which
drops the conflict if any of them did; and a resolution waits for a decision until there is the first one on its place.
-/

namespace VersionControl.Resolution

/-! ## Decisions on one resolution -/

/-- What a decision makes of the resolution at its place. -/
def Decision.onEntry (d : Decision) (r : Resolution) : Resolution :=
  (if d.forget then { r with conflict := none } else r).decide d.value

theorem Decision.conflict_onEntry (d : Decision) (r : Resolution) :
    (d.onEntry r).conflict = if d.forget then none else r.conflict := by
  cases hforget : d.forget <;> simp [onEntry, decide, hforget]

/-- A later decision leaves nothing of an earlier one, except that a conflict stays dropped. -/
theorem Decision.onEntry_onEntry (d e : Decision) (r : Resolution) :
    e.onEntry (d.onEntry r) = { e with forget := d.forget || e.forget }.onEntry r := by
  cases hd : d.forget <;> cases he : e.forget <;> simp [onEntry, decide, hd, he]

/-- The last decision on a place. -/
def lastOn (ds : List Decision) (place : Nat) : Option Decision := ds.reverse.find? (·.index = place)

/-- Some decision on a place drops the conflict. -/
def drops (ds : List Decision) (place : Nat) : Bool := ds.any fun d => d.index = place && d.forget

/-- The resolution at a place after all the decisions. -/
def decidedAt (ds : List Decision) (place : Nat) (r : Resolution) : Resolution :=
  match lastOn ds place with
  | none => r
  | some last => { last with forget := drops ds place }.onEntry r

variable {ds : List Decision} {place : Nat} {d : Decision} {r : Resolution}

theorem lastOn_concat (ds : List Decision) (d : Decision) (place : Nat) :
    lastOn (ds ++ [d]) place = if d.index = place then some d else lastOn ds place := by
  rw [lastOn, List.reverse_append, List.reverse_singleton, List.singleton_append, List.find?_cons]
  by_cases h : d.index = place <;> simp [h, lastOn]

theorem drops_concat (ds : List Decision) (d : Decision) (place : Nat) :
    drops (ds ++ [d]) place = (drops ds place || (d.index = place && d.forget)) := by
  simp [drops]

theorem drops_eq_true_iff : drops ds place = true ↔ ∃ d ∈ ds, d.index = place ∧ d.forget = true := by
  simp [drops]

theorem lastOn_eq_none_iff : lastOn ds place = none ↔ place ∉ ds.map (·.index) := by
  simp [lastOn]

theorem exists_lastOn (h : place ∈ ds.map (·.index)) : ∃ last, lastOn ds place = some last := by
  cases hlast : lastOn ds place with
  | none => exact absurd h (lastOn_eq_none_iff.mp hlast)
  | some last => exact ⟨last, rfl⟩

theorem drops_of_lastOn_none (h : lastOn ds place = none) : drops ds place = false := by
  rw [← Bool.not_eq_true, drops_eq_true_iff]
  rintro ⟨d, hd, hplace, -⟩
  exact lastOn_eq_none_iff.mp h (hplace ▸ List.mem_map_of_mem hd)

theorem decidedAt_of_last (h : lastOn ds place = some d) :
    decidedAt ds place r = { d with forget := drops ds place }.onEntry r := by
  rw [decidedAt, h]

theorem decidedAt_of_notMem (h : place ∉ ds.map (·.index)) : decidedAt ds place = id :=
  funext fun r => by rw [decidedAt, lastOn_eq_none_iff.mpr h, id_eq]

theorem decidedAt_concat (ds : List Decision) (d : Decision) (place : Nat) (r : Resolution) :
    decidedAt (ds ++ [d]) place r =
      if d.index = place then d.onEntry (decidedAt ds place r) else decidedAt ds place r := by
  by_cases hplace : d.index = place
  · rw [if_pos hplace, decidedAt_of_last (by rw [lastOn_concat, if_pos hplace]), drops_concat]
    cases hlast : lastOn ds place with
    | none =>
        -- The first decision on its place: what it drops is what all of them do.
        subst hplace
        simp [decidedAt, hlast, drops_of_lastOn_none hlast]
    | some last => simp [decidedAt_of_last hlast, Decision.onEntry_onEntry, hplace]
  · simp [decidedAt, lastOn_concat, drops_concat, hplace]

/-- A resolution is open at the end if it was so at the start and no decision was on its place. -/
theorem isManual_decidedAt : (decidedAt ds place r).isManual = (r.isManual && place ∉ ds.map (·.index)) := by
  by_cases hmem : place ∈ ds.map (·.index)
  · obtain ⟨last, hlast⟩ := exists_lastOn hmem
    rw [decidedAt_of_last hlast]
    simp [hmem, Decision.onEntry, decide]
  · rw [decidedAt_of_notMem hmem]
    simp [hmem]

/-! ## Decisions on all of them -/

theorem applyDecision_eq (rs : List Resolution) (d : Decision) :
    applyDecision rs d = rs.mapIdx fun place r => if d.index = place then d.onEntry r else r := by
  refine List.ext_getElem? fun place => ?_
  rw [applyDecision, List.getElem?_modify, List.getElem?_mapIdx]
  rfl

/-- Every resolution gets the decisions on its own place and no others. -/
theorem applyDecisions_eq (rs : List Resolution) (ds : List Decision) :
    applyDecisions rs ds = rs.mapIdx (decidedAt ds) := by
  induction ds using List.reverseRecOn with
  | nil =>
      refine List.ext_getElem? fun place => ?_
      rw [List.getElem?_mapIdx, decidedAt_of_notMem (List.not_mem_nil), Option.map_id_apply]
      rfl
  | append_singleton ds d ih =>
      calc applyDecisions rs (ds ++ [d])
          = applyDecision (applyDecisions rs ds) d := List.foldl_append
        _ = rs.mapIdx (decidedAt (ds ++ [d])) := by
            rw [ih, applyDecision_eq, List.mapIdx_mapIdx]
            exact congrArg (rs.mapIdx ·) (funext₂ fun place r => (decidedAt_concat ds d place r).symm)

theorem getElem?_applyDecisions (rs : List Resolution) (ds : List Decision) (place : Nat) :
    (applyDecisions rs ds)[place]? = rs[place]?.map (decidedAt ds place) := by
  rw [applyDecisions_eq, List.getElem?_mapIdx]

theorem applyDecisions_of_getElem? {rs : List Resolution} (h : rs[place]? = some r) (ds : List Decision) :
    (applyDecisions rs ds)[place]? = some (decidedAt ds place r) := by
  rw [getElem?_applyDecisions, h, Option.map_some]

theorem allComplete_applyDecisions_iff (rs : List Resolution) (ds : List Decision) :
    allComplete (applyDecisions rs ds) = true ↔
      ∀ (place : Nat) (before : Resolution), rs[place]? = some before → before.isManual = true →
        place ∈ ds.map (·.index) := by
  constructor
  · intro hall place before hbefore hmanual
    have hafter := List.mem_of_getElem? (applyDecisions_of_getElem? hbefore ds)
    simpa [isManual_decidedAt, hmanual] using List.all_eq_true.mp hall _ hafter
  · intro hcovered
    refine List.all_eq_true.mpr fun result hresult => ?_
    obtain ⟨place, hplace⟩ := List.getElem?_of_mem hresult
    rw [getElem?_applyDecisions] at hplace
    obtain ⟨before, hbefore, rfl⟩ := Option.map_eq_some_iff.mp hplace
    rw [isManual_decidedAt]
    cases hmanual : before.isManual with
    | false => rfl
    | true => simpa using hcovered place before hbefore hmanual

theorem unresolved_applyDecisions (rs : List Resolution) (ds : List Decision) :
    unresolved (applyDecisions rs ds) =
      ((rs.zipIdx.filter (·.1.isManual)).filter (·.2 ∉ ds.map (·.index))).map (·.1) := by
  have hplaced : applyDecisions rs ds = rs.zipIdx.map fun entry => decidedAt ds entry.2 entry.1 := by
    rw [applyDecisions_eq]
    exact List.mapIdx_eq_zipIdx_map
  have hopen : ((·.isManual) ∘ fun entry : Resolution × Nat => decidedAt ds entry.2 entry.1) =
      fun entry => entry.2 ∉ ds.map (·.index) && entry.1.isManual :=
    funext fun entry => by rw [Function.comp_apply, isManual_decidedAt, Bool.and_comm]
  rw [hplaced, unresolved, List.filter_map, List.filter_filter, hopen]
  refine List.map_congr_left fun entry hmem => ?_
  have hkept := (List.mem_filter.mp hmem).2
  exact congrFun (decidedAt_of_notMem (of_decide_eq_true (Bool.and_eq_true_iff.mp hkept).1)) entry.1

/-- What is expected of one resolution after decisions on its place, the last of them the one given. -/
structure IsDecided (ds : List Decision) (place : Nat) (last : Decision) (before after : Resolution) : Prop where
  value_eq : after.value = last.value
  label_eq : after.label = decidedLabel
  isManual_eq : after.isManual = false
  conflict_eq : after.conflict = if ∃ d ∈ ds, d.index = place ∧ d.forget = true then none else before.conflict
  explanation_eq : after.explanation = match after.conflict with
    | some c => "Manually resolved " ++ c.location
    | none => "Manually resolved"

theorem isDecided_decidedAt (h : lastOn ds place = some d) : IsDecided ds place d r (decidedAt ds place r) := by
  rw [decidedAt_of_last h]
  refine ⟨rfl, rfl, rfl, ?_, rfl⟩
  rw [Decision.conflict_onEntry]
  simp only [drops_eq_true_iff]

/-- What is expected of a list of resolutions after decisions. -/
structure FollowsDecisions (rs : List Resolution) (ds : List Decision) (after : List Resolution) : Prop where
  length_eq : after.length = rs.length
  untouched (place : Nat) : place ∉ ds.map (·.index) → after[place]? = rs[place]?
  decided (place : Nat) (before : Resolution) : rs[place]? = some before → place ∈ ds.map (·.index) →
    ∃ last result, lastOn ds place = some last ∧ after[place]? = some result ∧ IsDecided ds place last before result
  allComplete_iff : allComplete after = true ↔
    ∀ (place : Nat) (before : Resolution), rs[place]? = some before → before.isManual = true →
      place ∈ ds.map (·.index)
  unresolved_eq : unresolved after =
    ((rs.zipIdx.filter (·.1.isManual)).filter (·.2 ∉ ds.map (·.index))).map (·.1)

/-- Decisions complete a merge exactly if there is one on every open resolution. -/
theorem followsDecisions_applyDecisions (rs : List Resolution) (ds : List Decision) :
    FollowsDecisions rs ds (applyDecisions rs ds) where
  length_eq := by rw [applyDecisions_eq, List.length_mapIdx]
  untouched place hmem := by
    rw [getElem?_applyDecisions, decidedAt_of_notMem hmem, Option.map_id_apply]
  decided place before hbefore hmem := by
    obtain ⟨last, hlast⟩ := exists_lastOn hmem
    exact ⟨last, decidedAt ds place before, hlast, applyDecisions_of_getElem? hbefore ds, isDecided_decidedAt hlast⟩
  allComplete_iff := allComplete_applyDecisions_iff rs ds
  unresolved_eq := unresolved_applyDecisions rs ds

/-- The second decision on the first place takes its value away again, and keeps the conflict dropped. -/
example :
    let c : Conflict := { kind := .concurrentUpdate, target := "posts:p" }
    applyDecisions [.manual c "manual" "", .manual c "manual" ""] [⟨0, some ⟨"a"⟩, true⟩, ⟨0, none, false⟩] =
      [{ label := "manual-resolved", explanation := "Manually resolved" }, .manual c "manual" ""] := by
  rfl

end VersionControl.Resolution
