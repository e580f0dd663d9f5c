import VersionControl.Branch.Table
import VersionControl.Proofs.Branch.Occurrence

/-!
# Listing

In memory the branches are listed from what is read under their keys, in the order of their names.
-/

namespace VersionControl

namespace BranchTable

@[simp] theorem ofList_toList (table : BranchTable) : ofList table.toList table.current = table := by
  have hentries : table.toList.map (fun branch => (branch.name, branch.commit)) = table.commits.entries := by
    simp [toList, Function.comp_def]
  rw [ofList, hentries, Dict.ofList_entries]

end BranchTable

namespace Branch

variable {store : MemoryStore} {table : BranchTable} {name commit : String}

/-! ## What is read under the keys -/

/-- In byte order, names stand like the keys of their refs. -/
theorem key_lt_key_iff {other : String} : Ref.key name < Ref.key other ↔ name < other := by
  have hchars : (Ref.key name).toList < (Ref.key other).toList ↔ name.toList < other.toList := by
    rw [Ref.key, Ref.key, String.toList_append, String.toList_append, Text.append_lt_append_iff]
  exact hchars

/-- What stands under the key of each ref but HEAD, read as a pointer. -/
def pointers (store : MemoryStore) : Dict String where
  entries := (store.objects.entries.filter fun e => Text.startsWith Ref.directory e.1).map fun e =>
    (Text.dropStart Ref.directory e.1, Ref.trimPointer e.2)
  ascending := by
    refine List.pairwise_map.2 (List.Pairwise.imp_of_mem ?_ (store.objects.ascending.filter _))
    intro a b ha hb hlt
    obtain ⟨name, hname⟩ := Ref.startsWith_directory_iff.1 (List.mem_filter.1 ha).2
    obtain ⟨other, hother⟩ := Ref.startsWith_directory_iff.1 (List.mem_filter.1 hb).2
    rw [← hname, ← hother, key_lt_key_iff] at hlt
    rwa [← hname, ← hother, Ref.dropStart_key, Ref.dropStart_key]

theorem get?_pointers (store : MemoryStore) (name : String) :
    (pointers store).get? name = (store.objects.get? (Ref.key name)).map Ref.trimPointer := by
  ext commit
  rw [Dict.get?_eq_some_iff, Option.map_eq_some_iff]
  constructor
  · intro hmem
    obtain ⟨⟨key, content⟩, hentry, heq⟩ := List.mem_map.1 hmem
    obtain ⟨hstored, hstart⟩ := List.mem_filter.1 hentry
    obtain ⟨other, rfl⟩ := Ref.startsWith_directory_iff.1 hstart
    rw [Ref.dropStart_key] at heq
    cases heq
    exact ⟨content, Dict.get?_eq_some_iff.2 hstored, rfl⟩
  · rintro ⟨content, hget, rfl⟩
    refine List.mem_map.2 ⟨(Ref.key name, content), List.mem_filter.2 ⟨Dict.get?_eq_some_iff.1 hget, ?_⟩, ?_⟩
    · exact Ref.startsWith_directory_iff.2 ⟨name, rfl⟩
    · rw [Ref.dropStart_key]

theorem names_eq (store : MemoryStore) : Ref.names store = .ok (pointers store).keys := by
  have hkeys : (store.keys Ref.directory).map (Text.dropStart Ref.directory) = (pointers store).keys := by
    rw [MemoryStore.keys_eq_filter]
    simp [Dict.keys, pointers, List.filter_map, Function.comp_def]
  rw [← hkeys]
  rfl

/-! ## Lists and tables -/

theorem mapM_map_eq_ok {ε α β γ : Type} {f : β → Except ε γ} {p : α → β} {g : α → γ} {xs : List α}
    (h : ∀ x ∈ xs, f (p x) = .ok (g x)) : (xs.map p).mapM f = .ok (xs.map g) := by
  induction xs with
  | nil => rfl
  | cons x xs ih =>
      rw [List.forall_mem_cons] at h
      rw [List.map_cons, List.mapM_cons, h.1, ih h.2]
      rfl

theorem exists_of_mapM_eq_ok {ε α β : Type} {f : α → Except ε β} {xs : List α} {ys : List β}
    (h : xs.mapM f = .ok ys) : ∀ x ∈ xs, ∃ y, f x = .ok y := by
  induction xs generalizing ys with
  | nil => simp
  | cons x xs ih =>
      rw [List.mapM_cons] at h
      cases hfirst : f x with
      | error error =>
          rw [hfirst] at h
          cases h
      | ok y =>
          cases hrest : xs.mapM f with
          | error error =>
              rw [hfirst, hrest] at h
              cases h
          | ok ys => exact List.forall_mem_cons.2 ⟨⟨y, hfirst⟩, ih hrest⟩

/-- What a store looks like to those who list its branches and ask for the current one. -/
structure Shows (store : MemoryStore) (table : BranchTable) : Prop where
  unshadowed : store.objects.get? (Ref.key Head.name) = none
  commits : ∀ name, table.commits.get? name = (store.objects.get? (Ref.key name)).map Ref.trimPointer
  notBlank : ∀ name commit, table.commits.get? name = some commit → commit ≠ ""
  current : current store = .ok table.current

theorem Shows.ne_head (h : Shows store table) (hget : table.commits.get? name = some commit) :
    name ≠ Head.name := by
  rintro rfl
  rw [h.commits, h.unshadowed] at hget
  cases hget

theorem Shows.resolve (h : Shows store table) (hget : table.commits.get? name = some commit) :
    Ref.resolve store name = .ok commit := by
  rw [Ref.resolve_of_ne_head (h.ne_head hget)]
  exact Ref.readPointer_eq_ok_iff.2 ⟨(h.commits name).symm.trans hget, h.notBlank name commit hget⟩

theorem list_of_shows (h : Shows store table) : list store = .ok table.toList := by
  have htable : pointers store = table.commits := Dict.ext_get? fun name => by
    rw [get?_pointers, h.commits]
  have hlist : list store = table.commits.keys.mapM fun name => do
      return { name, commit := ← Ref.resolve store name, isCurrent := table.current = some name } := by
    rw [Branch.list, names_eq, h.current, htable]
    rfl
  rw [hlist]
  refine mapM_map_eq_ok fun entry hmem => ?_
  have hresolve := h.resolve (Dict.get?_eq_some_iff.2 hmem)
  rw [hresolve]
  rfl

/-- A store that can be listed looks like its list. -/
theorem shows_of_list {branches : List Branch} {active : Option String}
    (hhead : ObjectStore.has store (Ref.key Head.name) = false) (hlist : list store = .ok branches)
    (hcurrent : current store = .ok active) : Shows store (.ofList branches active) := by
  have hnone : store.objects.get? (Ref.key Head.name) = none :=
    Option.not_isSome_iff_eq_none.1 (Bool.eq_false_iff.1 hhead)
  have hshows : Shows store ⟨pointers store, active⟩ := by
    refine ⟨hnone, get?_pointers store, fun name commit hget => ?_, hcurrent⟩
    have hname : name ≠ Head.name := by
      rintro rfl
      rw [get?_pointers, hnone] at hget
      cases hget
    rw [Branch.list, names_eq, hcurrent] at hlist
    obtain ⟨branch, hbranch⟩ := exists_of_mapM_eq_ok hlist name (Dict.mem_keys.2 ⟨commit, hget⟩)
    cases hresolve : Ref.resolve store name with
    | error error =>
        rw [hresolve] at hbranch
        cases hbranch
    | ok pointer =>
        obtain ⟨hpointer, hblank⟩ := Ref.readPointer_eq_ok_iff.1 ((Ref.resolve_of_ne_head hname).symm.trans hresolve)
        rw [get?_pointers, hpointer] at hget
        cases hget
        exact hblank
  cases hlist.symm.trans (list_of_shows hshows)
  rwa [BranchTable.ofList_toList ⟨pointers store, active⟩]

end Branch

end VersionControl
