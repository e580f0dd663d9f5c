import Mathlib.Data.List.Sort
import VersionControl.Dict

/-!
# Entries and look-ups

A dictionary holds an entry exactly where a look-up answers with its value, and each of its keys counts once. A union
joins what the two sides answer to a look-up.
-/

namespace VersionControl.Dict

variable {α : Type} {d : Dict α} {key : String} {value : α}

theorem mem_of_find?_eq_some {entries : List (String × α)} (h : find? key entries = some value) :
    (key, value) ∈ entries := by
  induction entries with
  | nil => simp [find?] at h
  | cons e rest ih =>
      rw [find?] at h
      split at h
      · rename_i hkey
        cases h
        exact hkey ▸ List.mem_cons_self
      · exact List.mem_cons_of_mem _ (ih h)

theorem get?_eq_some_iff : d.get? key = some value ↔ (key, value) ∈ d.entries := by
  refine ⟨mem_of_find?_eq_some, fun hmem => ?_⟩
  obtain ⟨entries, hasc⟩ := d
  simp only [get?] at hmem ⊢
  induction entries with
  | nil => simp at hmem
  | cons e rest ih =>
      obtain ⟨hlt, hrest⟩ := List.pairwise_cons.1 hasc
      rcases List.mem_cons.1 hmem with rfl | hmem
      · rw [find?, if_pos rfl]
      · have hne : e.1 ≠ key := fun heq => String.lt_irrefl _ (heq ▸ hlt _ hmem)
        rw [find?, if_neg hne]
        exact ih hrest hmem

theorem contains_iff : d.contains key = true ↔ ∃ value, d.get? key = some value :=
  Option.isSome_iff_exists

theorem mem_keys : key ∈ d.keys ↔ ∃ value, d.get? key = some value := by
  simp [keys, get?_eq_some_iff]

/-! ## Dictionaries from lists -/

theorem put_of_forall_lt {entries : List (String × α)} (h : ∀ e ∈ entries, e.1 < key) :
    put key value entries = entries ++ [(key, value)] := by
  induction entries with
  | nil => rfl
  | cons e rest ih =>
      rw [List.forall_mem_cons] at h
      have hnot : ¬key < e.1 := fun hlt => String.lt_irrefl _ (String.lt_trans hlt h.1)
      have hne : key ≠ e.1 := fun heq => String.lt_irrefl e.1 (heq ▸ h.1)
      rw [put, if_neg hnot, if_neg hne, ih h.2, List.cons_append]

theorem entries_foldl_insert {entries : List (String × α)}
    (h : (d.entries ++ entries).Pairwise fun a b => a.1 < b.1) :
    (entries.foldl (fun d e => d.insert e.1 e.2) d).entries = d.entries ++ entries := by
  induction entries generalizing d with
  | nil => simp
  | cons e rest ih =>
      have hbelow : ∀ x ∈ d.entries, x.1 < e.1 := fun x hx =>
        (List.pairwise_append.1 h).2.2 x hx e List.mem_cons_self
      have hentries : (d.insert e.1 e.2).entries = d.entries ++ [e] := put_of_forall_lt hbelow
      have hrest : ((d.insert e.1 e.2).entries ++ rest).Pairwise fun a b => a.1 < b.1 := by
        rwa [hentries, List.append_assoc]
      rw [List.foldl_cons, ih hrest, hentries, List.append_assoc]
      rfl

theorem entries_ofList {entries : List (String × α)} (h : entries.Pairwise fun a b => a.1 < b.1) :
    (ofList entries).entries = entries :=
  @entries_foldl_insert α empty entries h

@[simp] theorem ofList_entries (d : Dict α) : ofList d.entries = d := ext_entries (entries_ofList d.ascending)

theorem isEmpty_iff : d.isEmpty = true ↔ ∀ key, d.get? key = none := by
  rw [isEmpty, List.isEmpty_iff]
  constructor
  · intro h key
    rw [get?, h, find?]
  · intro h
    have hempty : d = empty := ext_get? h
    rw [hempty]
    rfl

theorem mem_keys_insert {k : String} : k ∈ (d.insert key value).keys ↔ key = k ∨ k ∈ d.keys := by
  simp only [mem_keys, get?_insert]
  by_cases h : key = k <;> simp [h]

theorem mem_keys_foldl_insert {entries : List (String × α)} :
    key ∈ (entries.foldl (fun d e => d.insert e.1 e.2) d).keys ↔ key ∈ d.keys ∨ key ∈ entries.map (·.1) := by
  induction entries generalizing d with
  | nil => simp
  | cons e rest ih =>
      rw [List.foldl_cons, ih, mem_keys_insert, List.map_cons, List.mem_cons, eq_comm, or_assoc, or_left_comm]

/-- The keys of a dictionary from a list are those that the list names, once or more often. -/
theorem mem_keys_ofList {entries : List (String × α)} : key ∈ (ofList entries).keys ↔ key ∈ entries.map (·.1) := by
  rw [ofList, mem_keys_foldl_insert]
  simp [keys, empty]

/-! ## Unions -/

variable {f : String → α → α → α} {a b : Dict α}

theorem get?_insertWith (f : String → α → α → α) (d : Dict α) (key : String) (value : α) (k : String) :
    (d.insertWith f key value).get? k = if key = k then (d.get? k).merge (f k) (some value) else d.get? k := by
  rw [insertWith, get?_insert]
  split
  case isTrue h =>
    subst h
    cases d.get? key <;> rfl
  case isFalse => rfl

/-- The values of a key are joined when the fold comes to the key, which it does once. -/
theorem get?_foldl_insertWith {entries : List (String × α)} (h : entries.Pairwise fun a b => a.1 < b.1)
    (d : Dict α) (key : String) :
    (entries.foldl (fun d e => d.insertWith f e.1 e.2) d).get? key =
      (d.get? key).merge (f key) (find? key entries) := by
  induction entries generalizing d with
  | nil => simp [find?]
  | cons e rest ih =>
      obtain ⟨hlt, hrest⟩ := List.pairwise_cons.1 h
      rw [List.foldl_cons, ih hrest, get?_insertWith, find?]
      split
      case isTrue hkey =>
        have hnone : find? key rest = none := find?_eq_none_of_forall_lt (hkey ▸ hlt)
        rw [hnone, Option.merge_none_right]
      case isFalse => rfl

@[simp] theorem get?_unionWith (f : String → α → α → α) (a b : Dict α) (key : String) :
    (unionWith f a b).get? key = (a.get? key).merge (f key) (b.get? key) :=
  get?_foldl_insertWith b.ascending a key

theorem unionWith_comm (h : ∀ key x y, a.get? key = some x → b.get? key = some y → f key x y = f key y x) :
    unionWith f a b = unionWith f b a := by
  refine ext_get? fun key => ?_
  simp only [get?_unionWith]
  cases ha : a.get? key with
  | none => simp
  | some x =>
      cases hb : b.get? key with
      | none => simp
      | some y => simp [h key x y ha hb]

theorem unionWith_assoc {c : Dict α}
    (h : ∀ key x y z, a.get? key = some x → b.get? key = some y → c.get? key = some z →
      f key (f key x y) z = f key x (f key y z)) :
    unionWith f (unionWith f a b) c = unionWith f a (unionWith f b c) := by
  refine ext_get? fun key => ?_
  simp only [get?_unionWith]
  cases ha : a.get? key with
  | none => simp
  | some x =>
      cases hb : b.get? key with
      | none => simp
      | some y =>
          cases hc : c.get? key with
          | none => simp
          | some z => simp [h key x y z ha hb hc]

@[simp] theorem empty_unionWith (f : String → α → α → α) (d : Dict α) : unionWith f empty d = d :=
  ext_get? fun key => by simp

@[simp] theorem unionWith_empty (f : String → α → α → α) (d : Dict α) : unionWith f d empty = d := rfl

theorem mem_keys_unionWith : key ∈ (unionWith f a b).keys ↔ key ∈ a.keys ∨ key ∈ b.keys := by
  simp only [mem_keys, get?_unionWith]
  cases a.get? key with
  | none => simp
  | some x => cases b.get? key <;> simp

/-! ## Keys and values -/

theorem find?_map {β : Type} (f : α → β) (entries : List (String × α)) (key : String) :
    find? key (entries.map fun e => (e.1, f e.2)) = (find? key entries).map f := by
  induction entries with
  | nil => rfl
  | cons e rest ih =>
      rw [List.map_cons, find?, find?, ih]
      split <;> rfl

@[simp] theorem get?_map {β : Type} (f : α → β) (d : Dict α) (key : String) :
    (d.map f).get? key = (d.get? key).map f :=
  find?_map f d.entries key

/-- In which order two dictionaries are united is not seen in the keys. -/
theorem keys_unionWith_comm (f g : String → α → α → α) (a b : Dict α) :
    (unionWith f a b).keys = (unionWith g b a).keys := by
  refine (keys_ascending _).eq_of_mem_iff (keys_ascending _) fun key => ?_
  rw [mem_keys_unionWith, mem_keys_unionWith, or_comm]

theorem keys_nodup (d : Dict α) : d.keys.Nodup := d.keys_ascending.imp String.ne_of_lt

theorem keys_erase (d : Dict α) (key : String) : (d.erase key).keys = d.keys.erase key := by
  rw [d.keys_nodup.erase_eq_filter, keys, keys, erase, List.filter_map]
  congr 1
  exact List.filter_congr fun e _ => by by_cases hkey : e.1 = key <;> simp [hkey]

theorem erase_insert (d : Dict α) (key : String) (value : α) : (d.insert key value).erase key = d.erase key :=
  ext_get? fun k => by by_cases hkey : key = k <;> simp [hkey]

theorem erase_eq_self (h : d.get? key = none) : d.erase key = d :=
  ext_get? fun k => by
    rw [get?_erase]
    split
    case isTrue heq => rw [← heq, h]
    case isFalse => rfl

/-- A key that is there counts once. -/
theorem countP_keys_of_get? (p : String → Bool) (h : d.get? key = some value) :
    d.keys.countP p = (d.erase key).keys.countP p + if p key then 1 else 0 := by
  rw [keys_erase, (List.perm_cons_erase (mem_keys.2 ⟨value, h⟩)).countP_eq, List.countP_cons]

theorem countP_keys_erase {p : String → Bool} (h : p key = false) :
    (d.erase key).keys.countP p = d.keys.countP p := by
  cases hget : d.get? key with
  | none => rw [erase_eq_self hget]
  | some value => simp [countP_keys_of_get? p hget, h]

theorem countP_keys_insert {p : String → Bool} (h : p key = false) :
    (d.insert key value).keys.countP p = d.keys.countP p := by
  rw [← countP_keys_erase h, erase_insert, countP_keys_erase h]

theorem countP_keys_insert_of_new (p : String → Bool) (h : d.get? key = none) :
    (d.insert key value).keys.countP p = d.keys.countP p + if p key then 1 else 0 := by
  have hget : (d.insert key value).get? key = some value := by simp
  rw [countP_keys_of_get? p hget, erase_insert, erase_eq_self h]

end VersionControl.Dict
