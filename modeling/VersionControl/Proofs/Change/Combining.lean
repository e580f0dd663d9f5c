import VersionControl.Proofs.Change.Commuting

/-!
# Combined operators

A combination has the operators of both sides, and under each the fields of both. So another side commutes with it
exactly if it commutes with both sides. Sides that commute come to the same combination in either order, unless
an operator accumulates on a field of both. Without such a field the combination of any two sides is a left-biased
union.
-/

namespace VersionControl.Operators

variable {accumulate : String → Value → Value → Value} {a b c : Operators} {operator field : String}

/-! ## What a combination names -/

theorem payload?_combineWith (accumulate : String → Value → Value → Value) (a b : Operators)
    (operator field : String) :
    (combineWith accumulate a b).payload? operator field =
      (a.payload? operator field).merge
        (fun ours theirs => if isAccumulating operator then accumulate operator ours theirs else ours)
        (b.payload? operator field) := by
  simp only [payload?, combineWith, Dict.get?_unionWith]
  cases a.get? operator with
  | none => simp
  | some ours =>
      cases b.get? operator with
      | none => simp
      | some theirs => simp

theorem mem_kindsOn_combineWith : operator ∈ (combineWith accumulate a b).kindsOn field ↔
    operator ∈ a.kindsOn field ∨ operator ∈ b.kindsOn field := by
  simp only [mem_kindsOn, payload?_combineWith]
  cases a.payload? operator field with
  | none => simp
  | some ours => cases b.payload? operator field <;> simp

theorem mem_fields_combineWith : field ∈ (combineWith accumulate a b).fields ↔ field ∈ a.fields ∨ field ∈ b.fields := by
  simp only [mem_fields, mem_kindsOn_combineWith, exists_or]

/-! ## Commuting with a combination -/

theorem Accumulates.of_not_mem (h : Accumulates a b field) (hfield : field ∉ c.fields) : Accumulates a c field := by
  obtain ⟨kind, haccumulating, hkind⟩ := h
  refine ⟨kind, haccumulating, fun operator hmem => hkind operator (.inl (hmem.resolve_right fun hc => ?_))⟩
  exact hfield (mem_fields.2 ⟨operator, hc⟩)

/-- A side that names the field allows it one operator, which the other two then share. -/
theorem accumulates_combineWith_iff (h : field ∈ a.fields) :
    Accumulates a (combineWith accumulate b c) field ↔ Accumulates a b field ∧ Accumulates a c field := by
  simp only [Accumulates, mem_kindsOn_combineWith]
  constructor
  · rintro ⟨kind, haccumulating, hkind⟩
    exact ⟨⟨kind, haccumulating, fun operator hmem => hkind operator (hmem.imp_right .inl)⟩,
      ⟨kind, haccumulating, fun operator hmem => hkind operator (hmem.imp_right .inr)⟩⟩
  · rintro ⟨⟨kind, haccumulating, hkind⟩, other, -, hother⟩
    obtain ⟨operator, hmem⟩ := mem_fields.1 h
    have hsame : other = kind := (hother operator (.inl hmem)).symm.trans (hkind operator (.inl hmem))
    refine ⟨kind, haccumulating, ?_⟩
    rintro operator (ha | hb | hc)
    · exact hkind operator (.inl ha)
    · exact hkind operator (.inr hb)
    · exact (hother operator (.inr hc)).trans hsame

theorem commutes_combineWith_iff : a.commutes (combineWith accumulate b c) = true ↔
    a.commutes b = true ∧ a.commutes c = true := by
  simp only [commutes_iff, mem_fields_combineWith]
  constructor
  · intro h
    exact ⟨fun field ha hb => ((accumulates_combineWith_iff ha).1 (h field ha (.inl hb))).1,
      fun field ha hc => ((accumulates_combineWith_iff ha).1 (h field ha (.inr hc))).2⟩
  · rintro ⟨hb, hc⟩ field ha hfield
    rw [accumulates_combineWith_iff ha]
    by_cases hfieldB : field ∈ b.fields
    · by_cases hfieldC : field ∈ c.fields
      · exact ⟨hb field ha hfieldB, hc field ha hfieldC⟩
      · exact ⟨hb field ha hfieldB, (hb field ha hfieldB).of_not_mem hfieldC⟩
    · have haccumulates := hc field ha (hfield.resolve_left hfieldB)
      exact ⟨haccumulates.of_not_mem hfieldB, haccumulates⟩

/-! ## The order of a combination -/

/-- Both sides name a field under the same accumulating operator. -/
def SharesAccumulated (a b : Operators) : Prop :=
  ∃ field ∈ a.fields, ∃ operator ∈ a.kindsOn field, isAccumulating operator = true ∧ operator ∈ b.kindsOn field

instance (a b : Operators) : Decidable (SharesAccumulated a b) := inferInstanceAs (Decidable (∃ _ ∈ _, _))

/-- A field of both sides would have to be under the same accumulating operator. -/
theorem not_mem_of_commutes (h : a.commutes b = true) (hshares : ¬ SharesAccumulated a b) (ha : field ∈ a.fields) :
    field ∉ b.fields := by
  intro hb
  obtain ⟨kind, haccumulating, hkind⟩ := commutes_iff.1 h field ha hb
  obtain ⟨operator, hoperator⟩ := mem_fields.1 ha
  obtain ⟨other, hother⟩ := mem_fields.1 hb
  obtain rfl := hkind operator (.inl hoperator)
  obtain rfl := hkind other (.inr hother)
  exact hshares ⟨field, ha, other, hoperator, haccumulating, hother⟩

theorem combineWith_comm (h : ∀ field ∈ a.fields, field ∉ b.fields) :
    combineWith accumulate a b = combineWith accumulate b a := by
  refine Dict.unionWith_comm fun operator ours theirs hours htheirs => ?_
  refine Dict.unionWith_comm fun field mine yours hmine hyours => ?_
  have ha : field ∈ a.fields := mem_fields.2 ⟨operator, mem_kindsOn_of_get? hours hmine⟩
  have hb : field ∈ b.fields := mem_fields.2 ⟨operator, mem_kindsOn_of_get? htheirs hyours⟩
  exact absurd hb (h field ha)

/-- Whatever accumulating makes of two payloads, a side commutes with a combination exactly if it commutes with both
sides of it, which need not commute themselves; and sides that commute without accumulating on a common field make
the same combination in either order. -/
theorem commutes_with_combination (accumulate : String → Value → Value → Value) (a b c : Operators) :
    (a.commutes (combineWith accumulate b c) = true ↔ a.commutes b = true ∧ a.commutes c = true) ∧
      (a.commutes b = true → ¬ SharesAccumulated a b →
        combineWith accumulate a b = combineWith accumulate b a) := by
  refine ⟨commutes_combineWith_iff, fun h hshares => ?_⟩
  exact combineWith_comm fun field ha => not_mem_of_commutes h hshares ha

/-- Two sides that set the same title do not commute, but a side that counts views commutes with both and so with what
they come to, where their likes are joined. -/
theorem commutes_with_combination_of_rivals :
    let accumulate : String → Value → Value → Value := fun _ ours theirs => ⟨ours.text ++ theirs.text⟩
    let a : Operators := .ofList [("$inc", .ofList [("views", ⟨"1"⟩)]), ("$set", .empty)]
    let b : Operators := .ofList [("$inc", .ofList [("likes", ⟨"2"⟩)]), ("$set", .ofList [("title", ⟨"x"⟩)])]
    let c : Operators := .ofList [("$inc", .ofList [("likes", ⟨"3"⟩)]), ("$set", .ofList [("title", ⟨"y"⟩)])]
    a.commutes b = true ∧ a.commutes c = true ∧ b.commutes c = false ∧ ¬ SharesAccumulated a b ∧
      a.commutes (combineWith accumulate b c) = true ∧
      (combineWith accumulate b c).payload? "$inc" "likes" = some ⟨"23"⟩ ∧
      (combineWith accumulate b c).payload? "$set" "title" = some ⟨"x"⟩ ∧
      combineWith accumulate a b = combineWith accumulate b a := by
  intro accumulate a b c
  have hb : a.commutes b = true := by decide +kernel
  have hc : a.commutes c = true := by decide +kernel
  have hshares : ¬ SharesAccumulated a b := by decide +kernel
  obtain ⟨hcombination, hcomm⟩ := commutes_with_combination accumulate a b c
  exact ⟨hb, hc, by decide +kernel, hshares, hcombination.2 ⟨hb, hc⟩, by decide +kernel, by decide +kernel,
    hcomm hb hshares⟩

/-! ## Left-biased unions -/

/-- The operators, the fields and the payloads of both sides; a payload that both have is taken from the first. -/
structure IsLeftUnion (whole a b : Operators) : Prop where
  operators : ∀ operator, operator ∈ whole.keys ↔ operator ∈ a.keys ∨ operator ∈ b.keys
  payloads : ∀ operator field,
    whole.payload? operator field = (a.payload? operator field).or (b.payload? operator field)
  fields : ∀ field, field ∈ whole.fields ↔ field ∈ a.fields ∨ field ∈ b.fields

theorem isAccumulating_of_shared (h : ¬ SharesAccumulated a b) (ha : operator ∈ a.kindsOn field)
    (hb : operator ∈ b.kindsOn field) : isAccumulating operator = false := by
  rw [Bool.eq_false_iff]
  intro haccumulating
  exact h ⟨field, mem_fields.2 ⟨operator, ha⟩, operator, ha, haccumulating, hb⟩

theorem isLeftUnion_combineWith (h : ¬ SharesAccumulated a b) :
    IsLeftUnion (combineWith accumulate a b) a b where
  operators _ := Dict.mem_keys_unionWith
  payloads operator field := by
    rw [payload?_combineWith]
    cases ha : a.payload? operator field with
    | none => simp
    | some ours =>
        cases hb : b.payload? operator field with
        | none => simp
        | some theirs =>
            have hkept := isAccumulating_of_shared h (mem_kindsOn.2 ⟨ours, ha⟩) (mem_kindsOn.2 ⟨theirs, hb⟩)
            simp [hkept]
  fields _ := mem_fields_combineWith

/-- Only a payload of all three sides is joined twice, and that one is the first side's either way. -/
theorem combineWith_assoc (h : ¬ SharesAccumulated a b) :
    combineWith accumulate (combineWith accumulate a b) c = combineWith accumulate a (combineWith accumulate b c) := by
  refine Dict.unionWith_assoc fun operator ours theirs others hours htheirs _ => ?_
  refine Dict.unionWith_assoc fun field mine yours last hmine hyours _ => ?_
  have hkept := isAccumulating_of_shared h (mem_kindsOn_of_get? hours hmine) (mem_kindsOn_of_get? htheirs hyours)
  simp [hkept]

/-- Of two sides that accumulate on no common field nothing is lost and the first side's payloads win, combining with
no operators changes nothing, and a third side may be combined with the second one before. -/
theorem combineWith_unites (accumulate : String → Value → Value → Value) (a b c : Operators)
    (h : ¬ SharesAccumulated a b) :
    IsLeftUnion (combineWith accumulate a b) a b ∧
      combineWith accumulate .empty a = a ∧ combineWith accumulate a .empty = a ∧
      combineWith accumulate (combineWith accumulate a b) c =
        combineWith accumulate a (combineWith accumulate b c) :=
  ⟨isLeftUnion_combineWith h, Dict.empty_unionWith _ a, Dict.unionWith_empty _ a, combineWith_assoc h⟩

/-- All three sides set the title, one has an operator without fields, and the last two both count likes. -/
theorem combineWith_unites_rivals :
    let accumulate : String → Value → Value → Value := fun _ ours theirs => ⟨ours.text ++ theirs.text⟩
    let a : Operators := .ofList [("$inc", .ofList [("views", ⟨"1"⟩)]), ("$set", .ofList [("title", ⟨"x"⟩)])]
    let b : Operators := .ofList [("$inc", .ofList [("likes", ⟨"2"⟩)]), ("$set", .ofList [("title", ⟨"y"⟩)]),
      ("$unset", .empty)]
    let c : Operators := .ofList [("$inc", .ofList [("likes", ⟨"3"⟩)]), ("$set", .ofList [("title", ⟨"z"⟩)])]
    ¬ SharesAccumulated a b ∧ SharesAccumulated b c ∧
      IsLeftUnion (combineWith accumulate a b) a b ∧
      combineWith accumulate .empty a = a ∧ combineWith accumulate a .empty = a ∧
      combineWith accumulate (combineWith accumulate a b) c =
        combineWith accumulate a (combineWith accumulate b c) := by
  intro accumulate a b c
  have hshares : ¬ SharesAccumulated a b := by decide +kernel
  exact ⟨hshares, by decide +kernel, combineWith_unites accumulate a b c hshares⟩

end VersionControl.Operators
