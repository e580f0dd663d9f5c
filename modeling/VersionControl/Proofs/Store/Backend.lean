import Mathlib.Data.List.Perm.Subperm
import VersionControl.Proofs.Store.Directory
import VersionControl.Proofs.Store.Memory
import VersionControl.Store.Backend

/-!
# The laws of both backends

A backend does to the store inside it what is asked of the backend, so that the laws of that store are its own.
-/

namespace VersionControl

open ObjectStore

/-! ## Stores inside stores -/

/-- A store that hands every call on to a store inside it. -/
structure Wraps {σ τ : Type} [ObjectStore σ] [ObjectStore τ] (wrap : σ → τ) : Prop where
  has : ∀ store key, ObjectStore.has (wrap store) key = ObjectStore.has store key
  read : ∀ store key, ObjectStore.read (wrap store) key = ObjectStore.read store key
  keys : ∀ store start, ObjectStore.keys (wrap store) start = ObjectStore.keys store start
  write : ∀ store key data,
    ObjectStore.write key data (wrap store) = (ObjectStore.write key data store).map id wrap
  remove : ∀ store key, ObjectStore.remove key (wrap store) = (ObjectStore.remove key store).map id wrap

namespace Wraps

variable {σ τ : Type} [ObjectStore σ] [ObjectStore τ] {wrap : σ → τ} {before after store : σ} {key : String}

theorem sameContent (h : Wraps wrap) (hsame : SameContent after before) :
    SameContent (wrap after) (wrap before) where
  keys start := by rw [h.keys, h.keys, hsame.keys]
  dump := by
    have hread (store : σ) : ObjectStore.read (wrap store) = ObjectStore.read store := funext (h.read store)
    have hdump (store : σ) : ObjectStore.dump (wrap store) = ObjectStore.dump store := by
      simp only [ObjectStore.dump, h.keys, hread]
    rw [hdump, hdump, hsame.dump]
  has hkey := by rw [h.has, h.has, hsame.has hkey]
  read hkey := by rw [h.read, h.read, hsame.read hkey]

theorem changesOnly (h : Wraps wrap) (honly : ChangesOnly key before after) :
    ChangesOnly key (wrap before) (wrap after) where
  has hother hne := by rw [h.has, h.has, honly.has hother hne]
  read hother hne hstored := by rw [h.read, h.read, honly.read hother hne (h.has _ _ ▸ hstored)]

variable [LawfulStore σ]

theorem write_cases (h : Wraps wrap) (hsound : LawfulStore.Sound store) (hkey : Key.IsPlain key)
    (data : String) :
    (∃ error after, ObjectStore.write key data (wrap store) = (.error error, wrap after) ∧
      LawfulStore.Sound after ∧ SameContent (wrap after) (wrap store) ∧
      (LawfulStore.Stages store key → ObjectStore.has (wrap store) key = false)) ∨
    ∃ after, ObjectStore.write key data (wrap store) = (.ok (), wrap after) ∧ LawfulStore.Sound after ∧
      ChangesOnly key (wrap store) (wrap after) ∧ ObjectStore.has (wrap after) key = true ∧
      ObjectStore.read (wrap after) key = .ok data := by
  simp only [h.has, h.read, h.write]
  rcases LawfulStore.write_cases hsound hkey data with
    ⟨error, after, hwrite, hafter, hsame, hmissing⟩ | ⟨after, hwrite, hafter, honly, hstored, hread⟩
  · exact .inl ⟨error, after, by rw [hwrite]; rfl, hafter, h.sameContent hsame, hmissing⟩
  · exact .inr ⟨after, by rw [hwrite]; rfl, hafter, h.changesOnly honly, hstored, hread⟩

theorem remove_of_has (h : Wraps wrap) (hsound : LawfulStore.Sound store) (hkey : Key.IsPlain key)
    (hstored : ObjectStore.has (wrap store) key = true) :
    ∃ after, ObjectStore.remove key (wrap store) = (.ok (), wrap after) ∧ LawfulStore.Sound after ∧
      ChangesOnly key (wrap store) (wrap after) ∧ ObjectStore.has (wrap after) key = false := by
  rw [h.has] at hstored
  obtain ⟨after, hremove, hafter, honly, hgone⟩ := LawfulStore.remove_of_has hsound hkey hstored
  exact ⟨after, by rw [h.remove, hremove]; rfl, hafter, h.changesOnly honly, by rw [h.has, hgone]⟩

end Wraps

/-! ## Backends -/

namespace Backend

/-- Any store in memory is sound; one on disk is when its tree is regular. -/
inductive IsSound : Backend → Prop
  | memory (store : MemoryStore) : IsSound (.memory store)
  | directory {store : DirectoryStore} : store.tree.Regular → IsSound (.directory store)

/-- No directory stands under a name that a staging file of the key can have; in memory there are neither. -/
def Stages : Backend → String → Prop
  | memory _, _ => True
  | directory store, key => store.Stages key

/-- A new directory on a disk without limits. -/
def onFreshDisk (rootPath : String) : Backend := .directory { rootPath, tree := { limits := .unlimited } }

theorem isSound_onFreshDisk (rootPath : String) : (onFreshDisk rootPath).IsSound :=
  .directory (FileTree.Regular.of_empty rfl rfl)

theorem stages_onFreshDisk (rootPath key : String) : (onFreshDisk rootPath).Stages key :=
  fun serial => by simp [Dict.get?_empty]

theorem wraps_memory : Wraps Backend.memory :=
  ⟨fun _ _ => rfl, fun _ _ => rfl, fun _ _ => rfl, fun _ _ _ => rfl, fun _ _ => rfl⟩

theorem wraps_directory : Wraps Backend.directory :=
  ⟨fun _ _ => rfl, fun _ _ => rfl, fun _ _ => rfl, fun _ _ _ => rfl, fun _ _ => rfl⟩

instance : LawfulStore Backend where
  Sound := IsSound
  Stages := Stages
  write_cases {backend key} h hkey data := by
    cases h with
    | memory store =>
        rcases wraps_memory.write_cases trivial hkey data with
          ⟨error, after, hfailed, -, hrest⟩ | ⟨after, hwritten, -, hrest⟩
        · exact .inl ⟨error, _, hfailed, .memory after, hrest⟩
        · exact .inr ⟨_, hwritten, .memory after, hrest⟩
    | @directory store hregular =>
        rcases wraps_directory.write_cases hregular hkey data with
          ⟨error, after, hfailed, hafter, hrest⟩ | ⟨after, hwritten, hafter, hrest⟩
        · exact .inl ⟨error, _, hfailed, .directory hafter, hrest⟩
        · exact .inr ⟨_, hwritten, .directory hafter, hrest⟩
  remove_of_has {backend key} h hkey hstored := by
    cases h with
    | memory store =>
        obtain ⟨after, hremoved, -, hrest⟩ := wraps_memory.remove_of_has trivial hkey hstored
        exact ⟨_, hremoved, .memory after, hrest⟩
    | @directory store hregular =>
        obtain ⟨after, hremoved, hafter, hrest⟩ := wraps_directory.remove_of_has hregular hkey hstored
        exact ⟨_, hremoved, .directory hafter, hrest⟩
  stages_write {backend key other} h hkey data hstages := by
    cases h with
    | memory store => exact trivial
    | @directory store hregular =>
        have hsound : LawfulStore.Sound store := hregular
        exact LawfulStore.stages_write hsound hkey data hstages
  stages_remove {backend key other} h hkey hstored hstages := by
    cases h with
    | memory store => exact trivial
    | @directory store hregular =>
        have hsound : LawfulStore.Sound store := hregular
        exact LawfulStore.stages_remove hsound hkey hstored hstages

end Backend

/-! ## Counting -/

theorem MemoryStore.length_le_objectCount {store : MemoryStore} {keys : List String} (hnodup : keys.Nodup)
    (hkeys : ∀ key ∈ keys, ObjectStore.has store key = true) : keys.length ≤ ObjectStore.objectCount store := by
  have hsubset : keys ⊆ store.objects.keys := fun key hkey => Dict.mem_keys.2 (has_iff.1 (hkeys key hkey))
  calc keys.length
    _ ≤ store.objects.keys.length := (hnodup.subperm hsubset).length_le
    _ = ObjectStore.objectCount store := List.length_map _

/-- Keys with a NUL are left out, since several of them lead to one file. -/
theorem DirectoryStore.length_le_objectCount {store : DirectoryStore} {keys : List String} (hnodup : keys.Nodup)
    (hkeys : ∀ key ∈ keys, ObjectStore.has store key = true) (hunbroken : ∀ key ∈ keys, '\x00' ∉ key.toList) :
    keys.length ≤ ObjectStore.objectCount store := by
  have hsubset : keys ⊆ store.tree.files := by
    intro key hkey
    have hfile := (Bool.and_eq_true_iff.1 (hkeys key hkey)).2
    rw [onDisk_eq (hunbroken key hkey), Option.isSome_iff_exists] at hfile
    obtain ⟨content, hcontent⟩ := hfile
    exact FileTree.mem_files_of_file? hcontent
  exact (hnodup.subperm hsubset).length_le

/-- Distinct keys of a backend are distinct objects. -/
theorem Backend.length_le_objectCount {backend : Backend} {keys : List String} (hnodup : keys.Nodup)
    (hkeys : ∀ key ∈ keys, ObjectStore.has backend key = true) (hunbroken : ∀ key ∈ keys, '\x00' ∉ key.toList) :
    keys.length ≤ ObjectStore.objectCount backend := by
  cases backend with
  | memory store => exact MemoryStore.length_le_objectCount hnodup hkeys
  | directory store => exact DirectoryStore.length_le_objectCount hnodup hkeys hunbroken

/-! ## Refusals -/

section Refusals

variable {key data : String} {error : Error}

theorem MemoryStore.kind_of_read {store : MemoryStore} (h : store.read key = .error error) :
    error.kind = .storage := by
  unfold MemoryStore.read at h
  split at h <;> cases h
  rfl

theorem MemoryStore.kind_of_write {store : MemoryStore} (h : (store.write key data).1 = .error error) :
    error.kind = .storage := by
  unfold MemoryStore.write at h
  split at h <;> cases h
  rfl

theorem DirectoryStore.kind_of_read {store : DirectoryStore} (h : store.read key = .error error) :
    error.kind = .storage := by
  unfold DirectoryStore.read at h
  split at h
  · cases h
    rfl
  · split at h <;> cases h
    rfl

theorem DirectoryStore.kind_of_writeWithin (limit : Option Nat) {store : DirectoryStore}
    (h : (store.writeWithin limit key data).1 = .error error) : error.kind = .storage := by
  unfold DirectoryStore.writeWithin at h
  dsimp only at h
  repeat' split at h
  all_goals cases h
  all_goals rfl

/-- A backend knows of keys only, so its refusals say nothing of commits, refs or branches. -/
theorem Backend.kind_of_read {backend : Backend} (h : ObjectStore.read backend key = .error error) :
    error.kind = .storage := by
  cases backend with
  | memory store => exact MemoryStore.kind_of_read h
  | directory store => exact DirectoryStore.kind_of_read h

theorem Backend.kind_of_write {backend : Backend} (h : (ObjectStore.write key data backend).1 = .error error) :
    error.kind = .storage := by
  cases backend with
  | memory store => exact MemoryStore.kind_of_write h
  | directory store => exact DirectoryStore.kind_of_writeWithin none h

end Refusals

end VersionControl
