import VersionControl.Proofs.Resolution.Strategy

/-!
# Fallbacks

A fallback answers as its first member that decides does, or else as its last one. What comes after a decision has no
part in the answer, and a fallback within a fallback may be replaced by its members.
-/

namespace VersionControl

namespace Resolution

variable {r : Resolution} {rs before rest : List Resolution}

/-! ## The first decision -/

/-- An answer, or the next one where the first leaves the decision open and there is a next one. -/
def orNext (first next : Option Resolution) : Option Resolution :=
  if first.all (·.isManual) then next.or first else first

theorem orNext_assoc (a b c : Option Resolution) : orNext (orNext a b) c = orNext a (orNext b c) := by
  cases a with
  | none => simp [orNext]
  | some a =>
      cases ha : a.isManual with
      | false => simp [orNext, ha]
      | true =>
          cases b with
          | none => simp [orNext, ha]
          | some b => cases hb : b.isManual <;> cases c <;> simp [orNext, ha, hb]

/-- The first resolution that leaves nothing open, or else the last one. -/
def firstDecision? (rs : List Resolution) : Option Resolution := (rs.find? (!·.isManual)).or rs.getLast?

theorem firstDecision?_cons (r : Resolution) (rs : List Resolution) :
    firstDecision? (r :: rs) = orNext (some r) (firstDecision? rs) := by
  cases hmanual : r.isManual with
  | false => simp [firstDecision?, orNext, hmanual]
  | true => simp [firstDecision?, orNext, hmanual, List.getLast?_cons]

theorem firstDecision?_append (rs others : List Resolution) :
    firstDecision? (rs ++ others) = orNext (firstDecision? rs) (firstDecision? others) := by
  induction rs with
  | nil => simp [firstDecision?, orNext]
  | cons r rs ih => rw [List.cons_append, firstDecision?_cons, firstDecision?_cons, ih, orNext_assoc]

theorem firstDecision?_of_manual (h : ∀ r ∈ rs, r.isManual = true) : firstDecision? rs = rs.getLast? := by
  have hnone : rs.find? (!·.isManual) = none := List.find?_eq_none.2 fun r hmem => by simp [h r hmem]
  rw [firstDecision?, hnone, Option.none_or]

theorem firstDecision?_of_decided (h : ∀ r ∈ before, r.isManual = true) (hr : r.isManual = false) :
    firstDecision? (before ++ r :: rest) = some r := by
  have hfound : (before ++ r :: rest).find? (!·.isManual) = some r :=
    List.find?_eq_some_iff_append.2 ⟨by simp [hr], before, rest, rfl, fun b hmem => by simp [h b hmem]⟩
  rw [firstDecision?, hfound, Option.some_or]

theorem mem_of_firstDecision? (h : firstDecision? rs = some r) : r ∈ rs := by
  rcases Option.or_eq_some_iff.1 h with hfound | ⟨-, hlast⟩
  · exact List.mem_of_find?_eq_some hfound
  · exact List.mem_of_getLast? hlast

theorem isManual_of_firstDecision? (h : firstDecision? rs = some r) :
    r.isManual = false ↔ ∃ other ∈ rs, other.isManual = false := by
  refine ⟨fun hr => ⟨r, mem_of_firstDecision? h, hr⟩, ?_⟩
  rintro ⟨other, hmem, hother⟩
  cases hfound : rs.find? (!·.isManual) with
  | none => simpa [hother] using List.find?_eq_none.1 hfound other hmem
  | some found =>
      rw [firstDecision?, hfound, Option.some_or] at h
      cases h
      simpa using List.find?_some hfound

end Resolution

namespace Strategy

open Resolution (firstDecision?)

/-! ## What a fallback answers -/

/-- The answer where no member is left to ask. -/
def undecided (c : Conflict) : Resolution :=
  .manual c "manual" ("No fallback strategy resolved " ++ c.location)

section Library

variable [ValueLibrary] {c : Conflict} {strategy : Strategy} {members inner : List Strategy}

theorem applyFirst_eq (c : Conflict) (members : List Strategy) :
    applyFirst c members = firstDecision? (members.map (apply c)) := by
  induction members with
  | nil => rfl
  | cons strategy members ih =>
      rw [applyFirst, List.map_cons, Resolution.firstDecision?_cons, ih, Resolution.orNext, Option.all_some]

/-- The answer of a member is settled already, so a fallback hands it on as it is. -/
theorem apply_fallback (c : Conflict) (members : List Strategy) :
    apply c (.fallback members) = (firstDecision? (members.map (apply c))).getD (undecided c) := by
  rw [apply, applyFirst_eq]
  cases hfirst : firstDecision? (members.map (apply c)) with
  | none => exact (Resolution.isSettled_manual (by decide)).settle_eq c
  | some r =>
      obtain ⟨strategy, -, rfl⟩ := List.mem_map.1 (Resolution.mem_of_firstDecision? hfirst)
      exact settle_apply c strategy

theorem firstDecision?_of_ne_nil (h : members ≠ []) :
    firstDecision? (members.map (apply c)) = some (apply c (.fallback members)) := by
  cases hfirst : firstDecision? (members.map (apply c)) with
  | none =>
      have hlast : (members.map (apply c)).getLast? = none := (Option.or_eq_none_iff.1 hfirst).2
      exact absurd (List.map_eq_nil_iff.1 (List.getLast?_eq_none_iff.1 hlast)) h
  | some r => rw [apply_fallback, hfirst, Option.getD_some]

/-- An answer is that of the first member that decides, or else that of the last one. -/
structure IsFirstDecision (c : Conflict) (members : List Strategy) (r : Resolution) : Prop where
  decided : ∀ before strategy rest, members = before ++ strategy :: rest →
    (∀ member ∈ before, (apply c member).isManual = true) → (apply c strategy).isManual = false →
      r = apply c strategy
  undecided : ∀ before strategy, members = before ++ [strategy] →
    (∀ member ∈ members, (apply c member).isManual = true) → r = apply c strategy
  empty : members = [] → r.isManual = true
  isManual_iff : r.isManual = false ↔ ∃ member ∈ members, (apply c member).isManual = false

theorem isFirstDecision_fallback (c : Conflict) (members : List Strategy) :
    IsFirstDecision c members (apply c (.fallback members)) where
  decided before strategy rest hmembers hbefore hdecided := by
    have hmanual : ∀ r ∈ before.map (apply c), r.isManual = true := List.forall_mem_map.2 hbefore
    rw [apply_fallback, hmembers, List.map_append, List.map_cons,
      Resolution.firstDecision?_of_decided hmanual hdecided, Option.getD_some]
  undecided before strategy hmembers hall := by
    have hmanual : ∀ r ∈ members.map (apply c), r.isManual = true := List.forall_mem_map.2 hall
    rw [apply_fallback, Resolution.firstDecision?_of_manual hmanual, hmembers, List.map_append, List.map_singleton,
      List.getLast?_concat, Option.getD_some]
  empty hmembers := by
    rw [hmembers, apply_fallback]
    rfl
  isManual_iff := by
    by_cases hmembers : members = []
    · rw [hmembers, apply_fallback]
      simp [firstDecision?, undecided, Resolution.manual]
    · rw [Resolution.isManual_of_firstDecision? (firstDecision?_of_ne_nil hmembers)]
      constructor
      · rintro ⟨_, hmem, hdecided⟩
        obtain ⟨member, hmember, rfl⟩ := List.mem_map.1 hmem
        exact ⟨member, hmember, hdecided⟩
      · rintro ⟨member, hmember, hdecided⟩
        exact ⟨_, List.mem_map_of_mem hmember, hdecided⟩

/-- Nobody is asked after a decision. -/
theorem apply_fallback_congr (h : (apply c strategy).isManual = false) (before rest other : List Strategy) :
    apply c (.fallback (before ++ strategy :: rest)) = apply c (.fallback (before ++ strategy :: other)) := by
  have hdecided (after : List Resolution) : firstDecision? (apply c strategy :: after) = some (apply c strategy) := by
    rw [Resolution.firstDecision?_cons, Resolution.orNext, if_neg (by simp [h])]
  simp only [apply_fallback, List.map_append, List.map_cons, Resolution.firstDecision?_append, hdecided]

/-- A fallback that has members stands for them wherever it is one itself. -/
theorem apply_fallback_flatten (h : inner ≠ []) (before rest : List Strategy) :
    apply c (.fallback (before ++ .fallback inner :: rest)) = apply c (.fallback (before ++ inner ++ rest)) := by
  rw [apply_fallback, apply_fallback]
  simp only [List.map_append, List.map_cons, Resolution.firstDecision?_append, Resolution.firstDecision?_cons,
    firstDecision?_of_ne_nil h, Resolution.orNext_assoc]

/-- Of any rules, and of fallbacks within fallbacks, a fallback answers as the first one that decides, or else as the
last. -/
theorem fallback_takes_first_decision (c : Conflict) :
    (∀ members, IsFirstDecision c members (apply c (.fallback members))) ∧
      (∀ before strategy rest other, (apply c strategy).isManual = false →
        apply c (.fallback (before ++ strategy :: rest)) = apply c (.fallback (before ++ strategy :: other))) ∧
      ∀ before inner rest, inner ≠ [] →
        apply c (.fallback (before ++ .fallback inner :: rest)) = apply c (.fallback (before ++ inner ++ rest)) :=
  ⟨isFirstDecision_fallback c, fun before _ rest other h => apply_fallback_congr h before rest other,
    fun before _ rest h => apply_fallback_flatten h before rest⟩

end Library

/-- The inner fallback ends in a rule of one's own that leaves the decision open and names a value; the outer one goes
on to the next rule. -/
theorem fallback_takes_first_decision_past_open_rule :
    let c : Conflict := { kind := .concurrentUpdate, target := "posts:p", ours := some ⟨"draft"⟩ }
    let open? : Strategy := .custom fun _ => { value := some ⟨"lost"⟩, isManual := true }
    let inner : List Strategy := [.named .manual, open?]
    inner ≠ [] ∧ (apply c open?).isManual = true ∧
      apply c (.fallback [.concatenate " ", .fallback inner, .nonNull, .named .theirs]) = apply c .nonNull ∧
      apply c (.fallback [.concatenate " ", .fallback inner]) = apply c open? := by
  intro c open? inner
  have hinner : inner ≠ [] := List.cons_ne_nil _ _
  have hopen : (apply c open?).isManual = true := by decide
  obtain ⟨hfirst, -, hflatten⟩ := fallback_takes_first_decision c
  refine ⟨hinner, hopen, ?_, ?_⟩
  · refine (hflatten [.concatenate " "] inner [.nonNull, .named .theirs] hinner).trans ?_
    exact (hfirst _).decided [.concatenate " ", .named .manual, open?] .nonNull [.named .theirs] rfl (by decide)
      (by decide)
  · refine (hflatten [.concatenate " "] inner [] hinner).trans ?_
    exact (hfirst _).undecided [.concatenate " ", .named .manual] open? rfl (by decide)

end Strategy

end VersionControl
