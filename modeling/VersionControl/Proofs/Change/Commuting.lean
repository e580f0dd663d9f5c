import Mathlib.Logic.Basic
import VersionControl.Change.Operators
import VersionControl.Proofs.Dict

/-!
# Operators that commute

Two sides commute if each field that both name is named by one operator only, which accumulates. It does not matter
which side is asked first, and it is told field by field: what a side has for other fields plays no part.
-/

namespace VersionControl.Operators

variable {ops a b : Operators} {operator field other : String} {kinds : List String} {payload : Value}

/-! ## Operators of a field -/

/-- What an operator has for a field. -/
def payload? (ops : Operators) (operator field : String) : Option Value :=
  (ops.get? operator).bind (·.get? field)

theorem payload?_eq_some_iff : ops.payload? operator field = some payload ↔
    ∃ payloads, (operator, payloads) ∈ ops.entries ∧ payloads.get? field = some payload := by
  simp only [payload?, Option.bind_eq_some_iff, Dict.get?_eq_some_iff (d := ops)]

theorem mem_kindsOn : operator ∈ ops.kindsOn field ↔ ∃ payload, ops.payload? operator field = some payload := by
  simp only [kindsOn, List.mem_map, List.mem_filter, Dict.contains_iff, payload?_eq_some_iff]
  constructor
  · rintro ⟨⟨kind, payloads⟩, ⟨hmem, payload, hget⟩, rfl⟩
    exact ⟨payload, payloads, hmem, hget⟩
  · rintro ⟨payload, payloads, hmem, hget⟩
    exact ⟨(operator, payloads), ⟨hmem, payload, hget⟩, rfl⟩

theorem mem_kindsOn_of_get? {payloads : Dict Value} (hops : ops.get? operator = some payloads)
    (hget : payloads.get? field = some payload) : operator ∈ ops.kindsOn field :=
  mem_kindsOn.2 ⟨payload, by simp [payload?, hops, hget]⟩

/-- The fields of a side are those that some operator names; an operator without fields adds none. -/
theorem mem_fields : field ∈ ops.fields ↔ ∃ operator, operator ∈ ops.kindsOn field := by
  simp only [fields, Dict.mem_keys_ofList, List.map_flatMap, List.map_map, List.mem_flatMap, mem_kindsOn,
    payload?_eq_some_iff]
  constructor
  · rintro ⟨⟨operator, payloads⟩, hmem, hfield⟩
    obtain ⟨payload, hget⟩ := Dict.mem_keys.1 (by simpa using hfield)
    exact ⟨operator, payload, payloads, hmem, hget⟩
  · rintro ⟨operator, payload, payloads, hmem, hget⟩
    exact ⟨(operator, payloads), hmem, by simpa using Dict.mem_keys.2 ⟨payload, hget⟩⟩

theorem isEmpty_eq_false_of_mem_fields (h : field ∈ ops.fields) : ops.isEmpty = false := by
  obtain ⟨operator, hoperator⟩ := mem_fields.1 h
  obtain ⟨payload, hpayload⟩ := mem_kindsOn.1 hoperator
  obtain ⟨payloads, hget, -⟩ := Option.bind_eq_some_iff.1 hpayload
  rw [← Bool.not_eq_true, Dict.isEmpty_iff]
  intro hempty
  cases hget.symm.trans (hempty operator)

/-! ## One field alone -/

theorem entries_restrict (ops : Operators) (field : String) :
    (ops.restrict field).entries = ops.entries.filterMap fun e =>
      (e.2.get? field).map fun payload => (e.1, Dict.empty.insert field payload) := by
  refine Dict.entries_ofList (ops.ascending.filterMap _ ?_)
  intro e later hlt kept hkept keptLater hlater
  obtain ⟨payload, -, rfl⟩ := Option.map_eq_some_iff.1 hkept
  obtain ⟨payloadLater, -, rfl⟩ := Option.map_eq_some_iff.1 hlater
  exact hlt

theorem get?_restrict (ops : Operators) (field operator : String) :
    (ops.restrict field).get? operator = (ops.payload? operator field).map (Dict.empty.insert field) := by
  ext payloads
  rw [Dict.get?_eq_some_iff, entries_restrict, List.mem_filterMap, Option.map_eq_some_iff]
  simp only [payload?_eq_some_iff, Option.map_eq_some_iff, Prod.mk.injEq]
  constructor
  · rintro ⟨⟨kind, all⟩, hmem, payload, hget, rfl, rfl⟩
    exact ⟨payload, ⟨all, hmem, hget⟩, rfl⟩
  · rintro ⟨payload, ⟨all, hmem, hget⟩, rfl⟩
    exact ⟨(operator, all), hmem, payload, hget, rfl, rfl⟩

theorem payload?_restrict (ops : Operators) (field operator other : String) :
    (ops.restrict field).payload? operator other = if field = other then ops.payload? operator field else none := by
  rw [payload?, get?_restrict]
  cases ops.payload? operator field <;> simp

theorem mem_kindsOn_restrict :
    operator ∈ (ops.restrict field).kindsOn other ↔ field = other ∧ operator ∈ ops.kindsOn field := by
  rw [mem_kindsOn, mem_kindsOn, payload?_restrict]
  by_cases h : field = other <;> simp [h]

theorem mem_fields_restrict : other ∈ (ops.restrict field).fields ↔ field = other ∧ field ∈ ops.fields := by
  simp only [mem_fields, mem_kindsOn_restrict, exists_and_left]

theorem isEmpty_restrict_eq_false_iff : (ops.restrict field).isEmpty = false ↔ field ∈ ops.fields := by
  simp only [← Bool.not_eq_true, Dict.isEmpty_iff, get?_restrict, Option.map_eq_none_iff, mem_fields, mem_kindsOn,
    not_forall, Option.ne_none_iff_exists']

/-! ## Commuting sides -/

/-- On both sides the field is named by one operator only, which accumulates. -/
def Accumulates (a b : Operators) (field : String) : Prop :=
  ∃ kind, isAccumulating kind = true ∧
    ∀ operator, operator ∈ a.kindsOn field ∨ operator ∈ b.kindsOn field → operator = kind

theorem isSingleAccumulating_iff (h : kinds ≠ []) :
    isSingleAccumulating kinds = true ↔ ∃ kind, isAccumulating kind = true ∧ ∀ k ∈ kinds, k = kind := by
  cases kinds with
  | nil => exact absurd rfl h
  | cons kind rest =>
      simp only [isSingleAccumulating, Bool.and_eq_true, List.all_eq_true, decide_eq_true_eq, List.forall_mem_cons]
      constructor
      · rintro ⟨haccumulating, hrest⟩
        exact ⟨kind, haccumulating, rfl, hrest⟩
      · rintro ⟨kind, haccumulating, rfl, hrest⟩
        exact ⟨haccumulating, hrest⟩

theorem commutes_iff : a.commutes b = true ↔ ∀ field ∈ a.fields, field ∈ b.fields → Accumulates a b field := by
  rw [commutes, List.all_eq_true]
  refine forall₂_congr fun field hfield => ?_
  obtain ⟨operator, hoperator⟩ := mem_fields.1 hfield
  have hne : a.kindsOn field ++ b.kindsOn field ≠ [] := List.ne_nil_of_mem (List.mem_append_left _ hoperator)
  have hempty : (b.kindsOn field).isEmpty = true ↔ field ∉ b.fields := by
    rw [List.isEmpty_iff, mem_fields, not_exists, List.eq_nil_iff_forall_not_mem]
  rw [Bool.or_eq_true, hempty, isSingleAccumulating_iff hne, Accumulates, ← imp_iff_not_or]
  simp only [List.mem_append]

theorem accumulates_restrict : Accumulates (a.restrict field) (b.restrict field) field ↔ Accumulates a b field := by
  simp only [Accumulates, mem_kindsOn_restrict, true_and]

theorem commutesOn_iff : a.commutesOn b field = true ↔
    field ∈ a.fields ∧ field ∈ b.fields ∧ Accumulates a b field := by
  simp only [commutesOn, Bool.and_eq_true, Bool.not_eq_true', isEmpty_restrict_eq_false_iff, and_assoc]
  refine and_congr_right fun ha => and_congr_right fun hb => ?_
  rw [commutes_iff]
  constructor
  · intro h
    exact accumulates_restrict.1 (h field (mem_fields_restrict.2 ⟨rfl, ha⟩) (mem_fields_restrict.2 ⟨rfl, hb⟩))
  · intro h other hother _
    obtain ⟨rfl, -⟩ := mem_fields_restrict.1 hother
    exact accumulates_restrict.2 h

/-! ## The sides exchanged -/

theorem Accumulates.symm (h : Accumulates a b field) : Accumulates b a field := by
  obtain ⟨kind, haccumulating, hkind⟩ := h
  exact ⟨kind, haccumulating, fun operator hoperator => hkind operator hoperator.symm⟩

theorem commutes_symm (h : a.commutes b = true) : b.commutes a = true := by
  rw [commutes_iff] at h ⊢
  intro field hb ha
  exact (h field ha hb).symm

theorem commutesOn_symm (h : a.commutesOn b field = true) : b.commutesOn a field = true := by
  rw [commutesOn_iff] at h ⊢
  obtain ⟨ha, hb, haccumulates⟩ := h
  exact ⟨hb, ha, haccumulates.symm⟩

/-- Which side is asked first does not matter, neither for all fields nor for one. -/
theorem commutes_exchanged (a b : Operators) :
    a.commutes b = b.commutes a ∧ ∀ field, a.commutesOn b field = b.commutesOn a field := by
  refine ⟨?_, fun field => ?_⟩
  · rw [Bool.eq_iff_iff]
    exact ⟨commutes_symm, commutes_symm⟩
  · rw [Bool.eq_iff_iff]
    exact ⟨commutesOn_symm, commutesOn_symm⟩

/-! ## Field by field -/

/-- Two sides commute exactly if they do on each field that both of them name; on any other field they do not. -/
theorem commutes_iff_commutesOn (a b : Operators) :
    (a.commutes b = true ↔ ∀ field ∈ a.fields, field ∈ b.fields → a.commutesOn b field = true) ∧
      ∀ field, ¬ (field ∈ a.fields ∧ field ∈ b.fields) → a.commutesOn b field = false := by
  constructor
  · rw [commutes_iff]
    refine forall₃_congr fun field ha hb => ?_
    simp only [commutesOn_iff, ha, hb, true_and]
  · intro field h
    rw [← Bool.not_eq_true, commutesOn_iff]
    exact fun hcommutes => h ⟨hcommutes.1, hcommutes.2.1⟩

end VersionControl.Operators
