import Mathlib.Data.Set.Insert
import VersionControl.Proofs.Bytes
import VersionControl.Proofs.Store.Directory
import VersionControl.Proofs.Store.TidyTree
import VersionControl.Store.Command

/-!
# The store on disk as a flat one

Whatever calls a store on disk has answered since it was empty, it shows a set of keys of which none stands
above another, and a text under each. The directories and staging files that come and go do not show.
-/

namespace VersionControl

namespace ObjectStore

variable {σ : Type} [ObjectStore σ]

/-- The keys of the objects. Where a text has a NUL in it, the disk takes it for another key. -/
def stored (store : σ) : Set String := {key | '\x00' ∉ key.toList ∧ ObjectStore.has store key = true}

/-- A change that puts a text under a key and does nothing else. -/
structure Puts (key data : String) (before after : σ) : Prop where
  stored : stored after = insert key (stored before)
  content : ObjectStore.read after key = .ok data
  others : ∀ other ∈ ObjectStore.stored before, other ≠ key →
    ObjectStore.read after other = ObjectStore.read before other

/-- A change that takes a key away and does nothing else. -/
structure Takes (key : String) (before after : σ) : Prop where
  stored : stored after = stored before \ {key}
  others : ∀ other ∈ ObjectStore.stored after, ObjectStore.read after other = ObjectStore.read before other

/-- No change of the keys or of the text under any. -/
structure Keeps (before after : σ) : Prop where
  stored : stored after = stored before
  others : ∀ other ∈ ObjectStore.stored before, ObjectStore.read after other = ObjectStore.read before other

end ObjectStore

namespace DirectoryStore

open ObjectStore (stored Puts Takes Keeps)
open FileTree (Tidy)

variable {store after : DirectoryStore} {key data : String}

/-! ## Objects and files -/

theorem mem_stored_iff (h : store.tree.Tidy) :
    key ∈ stored store ↔ ∃ content, store.tree.nodes.get? key = some (.file content) := by
  constructor
  · rintro ⟨hunbroken, hhas⟩
    have hstorable : Key.isStorable key = true := (Bool.and_eq_true_iff.1 hhas).1
    exact (has_iff h.regular ⟨hstorable, hunbroken⟩).1 hhas
  · rintro ⟨content, hfile⟩
    have hkey : Key.IsPlain key := h.plain hfile
    exact ⟨hkey.unbroken, (has_iff h.regular hkey).2 ⟨content, hfile⟩⟩

theorem read_of_file (h : store.tree.Tidy) (hfile : store.tree.nodes.get? key = some (.file data)) :
    ObjectStore.read store key = .ok data :=
  (read_eq h.regular (h.plain hfile)).trans (by rw [hfile])

theorem read_congr_of_file (h : store.tree.Tidy) (hafter : after.tree.Tidy)
    (hfiles : ∀ content, store.tree.nodes.get? key = some (.file content) →
      after.tree.nodes.get? key = some (.file content)) (hkey : key ∈ stored store) :
    ObjectStore.read after key = ObjectStore.read store key := by
  obtain ⟨content, hfile⟩ := (mem_stored_iff h).1 hkey
  rw [read_of_file h hfile, read_of_file hafter (hfiles content hfile)]

theorem keeps_of_tree_eq (htree : after.tree = store.tree) : Keeps store after := by
  have hsame := sameContent_of_tree_eq htree
  refine ⟨?_, fun other hother => hsame.read hother.1⟩
  ext other
  exact and_congr_right fun hunbroken => by rw [hsame.has hunbroken]

/-- Nothing that a plain key needs is taken. -/
def Free (store : DirectoryStore) (key : String) : Prop :=
  ∀ other ∈ stored store, ¬Key.IsAbove other key ∧ ¬Key.IsAbove key other

theorem accepts_iff_free (h : store.tree.Tidy) : store.tree.Accepts key ↔ store.Free key := by
  simp only [h.accepts_iff, Free, mem_stored_iff h, Key.isAbove_iff]
  exact ⟨fun hclear other ⟨content, hfile⟩ => hclear other content hfile,
    fun hfree other content hfile => hfree other ⟨content, hfile⟩⟩

/-! ## Writing -/

theorem write_of_free (h : store.tree.Tidy) (hkey : Key.IsPlain key) (hfree : store.Free key)
    (data : String) : ∃ after, store.write key data = (.ok (), after) ∧ after.tree.Tidy ∧
      Puts key data store after := by
  have haccepts := (accepts_iff_free h).2 hfree
  have hstaging : store.tree.nodes.get? (Key.stagingName key store.staged) ≠ some .directory := by
    simp [h.get?_stagingName]
  obtain ⟨tree, hwrite, hregular, hnodes⟩ := write_of_accepts h.regular hkey haccepts hstaging data
  have htidy : tree.Tidy := h.put hkey hregular hnodes
  have hput : tree.nodes.get? key = some (.file data) := by rw [hnodes, if_pos rfl]
  have hkept {other : String} {content : String} (hne : key ≠ other) :
      tree.nodes.get? other = some (.file content) ↔
        store.tree.nodes.get? other = some (.file content) := by
    rw [hnodes, if_neg hne]
    by_cases heq : Key.stagingName key store.staged = other
    · simp [← heq, h.get?_stagingName]
    · rw [if_neg heq]
      split
      case isTrue hmem => simp [haccepts.1.above other hmem content]
      case isFalse => exact Iff.rfl
  refine ⟨_, hwrite, htidy, ?_, read_of_file htidy hput, fun other hother hne => ?_⟩
  · ext other
    rw [Set.mem_insert_iff, mem_stored_iff htidy, mem_stored_iff h]
    by_cases heq : key = other
    · exact iff_of_true ⟨data, heq ▸ hput⟩ (.inl heq.symm)
    · simp only [hkept heq, Ne.symm heq, false_or]
  · exact read_congr_of_file h htidy (fun content => (hkept (Ne.symm hne)).2) hother

theorem write_of_not_free (h : store.tree.Tidy) (hkey : Key.IsPlain key) (hfree : ¬store.Free key)
    (data : String) : ∃ error after, store.write key data = (.error error, after) ∧
      after.tree = store.tree := by
  have hrefused : ¬store.tree.Accepts key := mt (accepts_iff_free h).1 hfree
  obtain ⟨error, after, hwrite, htree⟩ :=
    write_of_not_accepts h.regular hkey hrefused (by simp [h.get?_stagingName]) data
  exact ⟨error, after, hwrite, htree.elim id fun hdrop => hdrop.trans (h.drop_stagingName _ _)⟩

/-- A write puts its text under a storable key that is free, and otherwise fails without a trace. -/
theorem write_cases_of_tidy (h : store.tree.Tidy) (hunbroken : '\x00' ∉ key.toList) (data : String) :
    (Key.isStorable key = true ∧ store.Free key ∧ ∃ after, store.write key data = (.ok (), after) ∧
      after.tree.Tidy ∧ Puts key data store after) ∨
    ¬(Key.isStorable key = true ∧ store.Free key) ∧ ∃ error after,
      store.write key data = (.error error, after) ∧ after.tree = store.tree := by
  cases hstorable : Key.isStorable key with
  | false =>
      refine .inr ⟨by simp, .storage (.invalidKey key), store, ?_, rfl⟩
      simp [write, writeWithin, hstorable]
  | true =>
      have hkey : Key.IsPlain key := ⟨hstorable, hunbroken⟩
      by_cases hfree : store.Free key
      · exact .inl ⟨rfl, hfree, write_of_free h hkey hfree data⟩
      · exact .inr ⟨fun hboth => hfree hboth.2, write_of_not_free h hkey hfree data⟩

/-! ## Removing -/

theorem remove_of_stored (h : store.tree.Tidy) (hstored : key ∈ stored store) :
    ∃ after, store.remove key = (.ok (), after) ∧ after.tree.Tidy ∧ Takes key store after := by
  obtain ⟨content, hfile⟩ := (mem_stored_iff h).1 hstored
  obtain ⟨htidy, hfiles⟩ := h.remove hfile
  refine ⟨_, remove_eq h.regular (h.plain hfile) hfile, htidy, ?_, fun other hother => ?_⟩
  · ext other
    rw [Set.mem_sdiff, Set.mem_singleton_iff, mem_stored_iff htidy, mem_stored_iff h]
    simp only [hfiles, exists_and_left]
    exact ⟨fun ⟨hne, hget⟩ => ⟨hget, Ne.symm hne⟩, fun ⟨hget, hne⟩ => ⟨Ne.symm hne, hget⟩⟩
  · refine (read_congr_of_file htidy h (fun content hget => ((hfiles _ _).1 hget).2) hother).symm

theorem remove_of_not_stored (h : store.tree.Tidy) (hunbroken : '\x00' ∉ key.toList)
    (hmissing : key ∉ stored store) : ∃ error, store.remove key = (.error error, store) := by
  cases hstorable : Key.isStorable key with
  | false => exact ⟨.storage (.invalidKey key), by simp [remove, hstorable]⟩
  | true =>
      have hkey : Key.IsPlain key := ⟨hstorable, hunbroken⟩
      have hfile : ∀ content, store.tree.nodes.get? key ≠ some (.file content) := fun content hget =>
        hmissing ((mem_stored_iff h).2 ⟨content, hget⟩)
      rcases h.removeNode_of_not_file hkey.named hfile with hnode | ⟨fault, hnode⟩
      · exact ⟨_, by simp [remove, hstorable, onDisk_eq hunbroken, hnode]; rfl⟩
      · exact ⟨_, by simp [remove, hstorable, onDisk_eq hunbroken, hnode]; rfl⟩

/-! ## Listing -/

theorem keys_of_tidy (h : store.tree.Tidy) (start : String) :
    store.keys start = .ok (store.tree.files.filter (Text.startsWith start)) := by
  simp only [keys, h.root]
  refine congrArg Except.ok (List.filter_congr fun key hmem => ?_)
  obtain ⟨content, hfile⟩ := FileTree.mem_files.1 hmem
  have hplain := (h.plain hfile).segment (Key.baseName_mem_segments key)
  rw [hplain.2, Bool.not_false, Bool.true_and]

theorem listed_of_tidy (h : store.tree.Tidy) (start : String) :
    ∃ names, ObjectStore.keys store start = .ok names ∧
      names.Pairwise (fun a b => Text.bytes a < Text.bytes b) ∧
      ∀ key, key ∈ names ↔ key ∈ stored store ∧ Text.bytes start <+: Text.bytes key := by
  refine ⟨_, keys_of_tidy h start, ?_, fun key => ?_⟩
  · exact ((FileTree.files_ascending _).imp Text.bytes_lt_of_lt).filter _
  · rw [List.mem_filter, FileTree.mem_files, mem_stored_iff h, Text.bytes_prefix_iff]

/-! ## Runs -/

theorem tidy_perform (h : store.tree.Tidy) {command : StoreCommand} (hunbroken : '\x00' ∉ command.key.toList) :
    (command.perform store).2.tree.Tidy := by
  cases command with
  | write key data =>
      change (store.write key data).2.tree.Tidy
      change '\x00' ∉ key.toList at hunbroken
      rcases write_cases_of_tidy h hunbroken data with
        ⟨-, -, after, hwrite, htidy, -⟩ | ⟨-, error, after, hwrite, htree⟩
      · rwa [hwrite]
      · rwa [hwrite, htree]
  | remove key =>
      change (store.remove key).2.tree.Tidy
      change '\x00' ∉ key.toList at hunbroken
      by_cases hstored : key ∈ stored store
      · obtain ⟨after, hremove, htidy, -⟩ := remove_of_stored h hstored
        rwa [hremove]
      · obtain ⟨error, hremove⟩ := remove_of_not_stored h hunbroken hstored
        rwa [hremove]
  | read key => exact h
  | has key => exact h
  | list start => exact h

theorem tidy_run {commands : List StoreCommand} (h : store.tree.Tidy)
    (hunbroken : ∀ command ∈ commands, '\x00' ∉ command.key.toList) :
    (StoreCommand.run commands store).tree.Tidy := by
  induction commands generalizing store with
  | nil => exact h
  | cons command commands ih =>
      rw [StoreCommand.run_cons]
      obtain ⟨hfirst, hrest⟩ := List.forall_mem_cons.1 hunbroken
      exact ih (tidy_perform h hfirst) hrest

/-- A store that shows no more than a set of keys, none above another, and the text under each. -/
structure IsFlat (store : DirectoryStore) : Prop where
  listed : ∀ start, ∃ names, ObjectStore.keys store start = .ok names ∧
    names.Pairwise (fun a b => Text.bytes a < Text.bytes b) ∧
    ∀ key, key ∈ names ↔ key ∈ stored store ∧ Text.bytes start <+: Text.bytes key
  apart : ∀ key ∈ stored store, ∀ other ∈ stored store, ¬Key.IsAbove key other
  written : ∀ key data, '\x00' ∉ key.toList → Key.isStorable key = true → store.Free key →
    ∃ after, ObjectStore.write key data store = (.ok (), after) ∧ Puts key data store after
  refused : ∀ key data, '\x00' ∉ key.toList → ¬(Key.isStorable key = true ∧ store.Free key) →
    ∃ error after, ObjectStore.write key data store = (.error error, after) ∧ Keeps store after
  removed : ∀ key ∈ stored store,
    ∃ after, ObjectStore.remove key store = (.ok (), after) ∧ Takes key store after
  kept : ∀ key, '\x00' ∉ key.toList → key ∉ stored store →
    ∃ error after, ObjectStore.remove key store = (.error error, after) ∧ Keeps store after

theorem isFlat_of_tidy (h : store.tree.Tidy) : store.IsFlat where
  listed := listed_of_tidy h
  apart key hkey other hother habove := by
    obtain ⟨content, hfile⟩ := (mem_stored_iff h).1 hkey
    obtain ⟨_, hget⟩ := (mem_stored_iff h).1 hother
    exact h.not_mem_ancestors hfile hget (Key.isAbove_iff.1 habove)
  written key data hunbroken hstorable hfree := by
    obtain ⟨after, hwrite, -, hputs⟩ := write_of_free h ⟨hstorable, hunbroken⟩ hfree data
    exact ⟨after, hwrite, hputs⟩
  refused key data hunbroken hrefused := by
    rcases write_cases_of_tidy h hunbroken data with ⟨hstorable, hfree, -⟩ | ⟨-, error, after, hwrite, htree⟩
    · exact absurd ⟨hstorable, hfree⟩ hrefused
    · exact ⟨error, after, hwrite, keeps_of_tree_eq htree⟩
  removed key hstored := by
    obtain ⟨after, hremove, -, htakes⟩ := remove_of_stored h hstored
    exact ⟨after, hremove, htakes⟩
  kept key hunbroken hmissing := by
    obtain ⟨error, hremove⟩ := remove_of_not_stored h hunbroken hmissing
    exact ⟨error, store, hremove, keeps_of_tree_eq rfl⟩

/-- However a store on disk has been used since it was empty, it is flat. -/
theorem isFlat_run {commands : List StoreCommand} (hempty : store.tree = { limits := .unlimited })
    (hunbroken : ∀ command ∈ commands, '\x00' ∉ command.key.toList) :
    (StoreCommand.run commands store).IsFlat :=
  isFlat_of_tidy (tidy_run (.of_empty hempty) hunbroken)

/-- The file at `a` is refused as long as there is one below it. -/
theorem isFlat_run_of_refused_write :
    let commands : List StoreCommand :=
      [.write "a/b" "first", .write "a" "second", .list "a", .remove "a/b", .write "a" "third"]
    let store : DirectoryStore := { rootPath := "objects", tree := { limits := .unlimited } }
    (∀ command ∈ commands, '\x00' ∉ command.key.toList) ∧ (StoreCommand.run commands store).IsFlat ∧
      (ObjectStore.keys (StoreCommand.run commands store) "").toOption = some ["a"] ∧
      (ObjectStore.read (StoreCommand.run commands store) "a").toOption = some "third" := by
  refine ⟨by decide, isFlat_run rfl (by decide), ?_, ?_⟩
  · decide +kernel
  · decide +kernel

end DirectoryStore

end VersionControl
