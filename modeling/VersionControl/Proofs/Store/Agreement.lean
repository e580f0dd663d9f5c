import Mathlib.Data.List.Sort
import VersionControl.Proofs.Store.Memory
import VersionControl.Proofs.Store.Reading

/-!
# Both stores answer alike

As long as no key stands above another, the objects of a store on disk are those of a store in memory that has
been given the same commands, and neither answers a command in another way than the other.
-/

namespace VersionControl

open ObjectStore (stored ReadsTruly)

theorem MemoryStore.readsTruly (store : MemoryStore) (key : String) : ReadsTruly store key := by
  cases hget : store.objects.get? key with
  | some content =>
      have hhas : ObjectStore.has store key = true := MemoryStore.has_iff.2 ⟨content, hget⟩
      exact ⟨iff_of_true ⟨content, MemoryStore.read_of_get? hget⟩ hhas, by simp [hhas]⟩
  | none =>
      have hread : ObjectStore.read store key = .error (.storage (.keyNotFound key)) := by
        simp only [ObjectStore.read, MemoryStore.read, hget]
      have hhas : ObjectStore.has store key = false := by
        simp only [ObjectStore.has, Dict.contains, hget, Option.isSome_none]
      exact ⟨by simp [hread, hhas], fun _ => hread⟩

namespace DirectoryStore

open FileTree (Tidy)
open ObjectStore (Puts Takes)

variable {store after : DirectoryStore} {key other data content : String}

theorem get?_eq_file_iff (h : store.tree.Tidy) : store.tree.nodes.get? key = some (.file content) ↔
    key ∈ stored store ∧ ObjectStore.read store key = .ok content := by
  constructor
  · intro hfile
    exact ⟨(mem_stored_iff h).2 ⟨content, hfile⟩, read_of_file h hfile⟩
  · rintro ⟨hstored, hread⟩
    obtain ⟨old, hfile⟩ := (mem_stored_iff h).1 hstored
    rw [read_of_file h hfile] at hread
    cases hread
    exact hfile

theorem get?_eq_file_iff_of_puts (h : store.tree.Tidy) (hafter : after.tree.Tidy)
    (hputs : Puts key data store after) : after.tree.nodes.get? other = some (.file content) ↔
      if key = other then data = content else store.tree.nodes.get? other = some (.file content) := by
  rw [get?_eq_file_iff hafter, hputs.stored, Set.mem_insert_iff]
  split
  case isTrue heq =>
    subst heq
    simp [hputs.content]
  case isFalse hne =>
    rw [get?_eq_file_iff h, or_iff_right (Ne.symm hne)]
    exact and_congr_right fun hstored => by rw [hputs.others other hstored (Ne.symm hne)]

theorem get?_eq_file_iff_of_takes (h : store.tree.Tidy) (hafter : after.tree.Tidy)
    (htakes : Takes key store after) : after.tree.nodes.get? other = some (.file content) ↔
      key ≠ other ∧ store.tree.nodes.get? other = some (.file content) := by
  rw [get?_eq_file_iff hafter, get?_eq_file_iff h]
  constructor
  · rintro ⟨hstored, hread⟩
    have hkept := htakes.stored ▸ hstored
    exact ⟨fun heq => hkept.2 heq.symm, hkept.1, (htakes.others other hstored).symm.trans hread⟩
  · rintro ⟨hne, hstored, hread⟩
    have hkept : other ∈ stored after := htakes.stored ▸ ⟨hstored, Ne.symm hne⟩
    exact ⟨hkept, (htakes.others other hkept).trans hread⟩

/-- Where nothing is stored at a key, above it or below it, there is nothing on its path to remove. -/
theorem remove_of_missing (h : store.tree.Tidy) (hkey : Key.IsPlain key) (hmissing : key ∉ stored store)
    (hfree : store.Free key) :
    ObjectStore.remove key store = (.error (.storage (.keyNotFound key)), store) := by
  have hnone : store.tree.nodes.get? key = none := by
    cases hget : store.tree.nodes.get? key with
    | none => rfl
    | some node =>
        cases node with
        | file content => exact absurd ((mem_stored_iff h).2 ⟨content, hget⟩) hmissing
        | directory =>
            obtain ⟨below, hbelow, habove⟩ := (get?_eq_directory_iff h).1 hget
            exact absurd habove (hfree below hbelow).2
  have hclear : ∀ dir ∈ Key.ancestors key, ∀ content,
      store.tree.nodes.get? dir ≠ some (.file content) := fun dir hdir content hfile =>
    (hfree dir ((mem_stored_iff h).2 ⟨content, hfile⟩)).1 (Key.isAbove_iff.2 hdir)
  have hlookup : store.tree.lookup key = .missing := by
    rw [h.regular.lookup_of_clear hkey.named h.root hclear, hnone]
  change store.remove key = _
  simp [remove, hkey.storable, onDisk_eq hkey.unbroken, FileTree.removeNode, hlookup]

end DirectoryStore

/-- A store in memory that holds the objects of a store on disk, all of them under the given keys. -/
structure Mirrors (keys : Set String) (disk : DirectoryStore) (memory : MemoryStore) : Prop where
  tidy : disk.tree.Tidy
  objects : ∀ {key content}, disk.tree.nodes.get? key = some (.file content) ↔
    memory.objects.get? key = some content
  named : ∀ {key content}, memory.objects.get? key = some content → key ∈ keys

/-- Plain keys of which none stands above another. -/
structure Apart (keys : Set String) : Prop where
  plain : ∀ key ∈ keys, Key.IsPlain key
  apart : ∀ key ∈ keys, ∀ other ∈ keys, ¬Key.IsAbove key other

namespace Mirrors

variable {keys : Set String} {disk : DirectoryStore} {memory : MemoryStore} {key data : String}

theorem of_empty (h : disk.tree = { limits := .unlimited }) : Mirrors keys disk .empty where
  tidy := .of_empty h
  objects := by simp [h, MemoryStore.empty]
  named hget := by simp [MemoryStore.empty] at hget

theorem mem_stored_iff (h : Mirrors keys disk memory) :
    key ∈ stored disk ↔ ∃ content, memory.objects.get? key = some content := by
  rw [DirectoryStore.mem_stored_iff h.tidy]
  exact exists_congr fun content => h.objects

/-! ## Looking -/

theorem keys_eq (h : Mirrors keys disk memory) (start : String) :
    ObjectStore.keys disk start = ObjectStore.keys memory start := by
  have hfiles : disk.tree.files = memory.objects.keys := by
    refine (disk.tree.files_ascending).eq_of_mem_iff memory.objects.keys_ascending fun key => ?_
    rw [FileTree.mem_files, Dict.mem_keys]
    exact exists_congr fun content => h.objects
  change disk.keys start = .ok (memory.keys start)
  rw [DirectoryStore.keys_of_tidy h.tidy, MemoryStore.keys_eq_filter, hfiles]

variable (h : Mirrors keys disk memory) (hkeys : Apart keys) (hkey : key ∈ keys)

include h hkeys hkey

theorem free : disk.Free key := by
  intro other hother
  obtain ⟨content, hget⟩ := h.mem_stored_iff.1 hother
  exact ⟨hkeys.apart other (h.named hget) key hkey, hkeys.apart key hkey other (h.named hget)⟩

theorem has_eq : ObjectStore.has disk key = ObjectStore.has memory key := by
  rw [Bool.eq_iff_iff, MemoryStore.has_iff, ← h.mem_stored_iff]
  exact (and_iff_right (hkeys.plain key hkey).unbroken).symm

theorem read_eq : ObjectStore.read disk key = ObjectStore.read memory key := by
  cases hhas : ObjectStore.has memory key with
  | true =>
      obtain ⟨content, hget⟩ := MemoryStore.has_iff.1 hhas
      rw [MemoryStore.read_of_get? hget]
      exact DirectoryStore.read_of_file h.tidy (h.objects.2 hget)
  | false =>
      have htruly : ReadsTruly disk key :=
        (DirectoryStore.readsTruly_iff_of_tidy h.tidy (hkeys.plain key hkey)).2 fun below hbelow =>
          (h.free hkeys hkey below hbelow).2
      rw [(memory.readsTruly key).missing hhas]
      exact htruly.missing ((h.has_eq hkeys hkey).trans hhas)

/-! ## Changing -/

theorem write (data : String) :
    (ObjectStore.write key data disk).1 = (ObjectStore.write key data memory).1 ∧
      Mirrors keys (ObjectStore.write key data disk).2 (ObjectStore.write key data memory).2 := by
  have hplain := hkeys.plain key hkey
  obtain ⟨after, hdisk, htidy, hputs⟩ := DirectoryStore.write_of_free h.tidy hplain (h.free hkeys hkey) data
  have hmemory := memory.write_eq hplain.ne_empty data
  simp only [ObjectStore.write] at hdisk hmemory ⊢
  rw [hdisk, hmemory]
  refine ⟨rfl, htidy, fun {other content} => ?_, fun {other content} hget => ?_⟩
  · rw [DirectoryStore.get?_eq_file_iff_of_puts h.tidy htidy hputs, Dict.get?_insert]
    split
    · rw [Option.some.injEq]
    · exact h.objects
  · rw [Dict.get?_insert] at hget
    split at hget
    case isTrue heq => exact heq ▸ hkey
    case isFalse => exact h.named hget

theorem remove :
    (ObjectStore.remove key disk).1 = (ObjectStore.remove key memory).1 ∧
      Mirrors keys (ObjectStore.remove key disk).2 (ObjectStore.remove key memory).2 := by
  have hplain := hkeys.plain key hkey
  by_cases hstored : key ∈ stored disk
  · obtain ⟨after, hdisk, htidy, htakes⟩ := DirectoryStore.remove_of_stored h.tidy hstored
    have hmemory := MemoryStore.remove_eq (MemoryStore.has_iff.2 (h.mem_stored_iff.1 hstored))
    simp only [ObjectStore.remove] at hdisk hmemory ⊢
    rw [hdisk, hmemory]
    refine ⟨rfl, htidy, fun {other content} => ?_, fun {other content} hget => ?_⟩
    · rw [DirectoryStore.get?_eq_file_iff_of_takes h.tidy htidy htakes, h.objects, Dict.get?_erase]
      split
      case isTrue heq => simp [heq]
      case isFalse hne => simp [hne]
    · rw [Dict.get?_erase] at hget
      split at hget
      case isTrue => cases hget
      case isFalse => exact h.named hget
  · have hdisk := DirectoryStore.remove_of_missing h.tidy hplain hstored (h.free hkeys hkey)
    have hmemory : ObjectStore.remove key memory = (.error (.storage (.keyNotFound key)), memory) :=
      MemoryStore.remove_of_not_has (by rwa [MemoryStore.has_iff, ← h.mem_stored_iff])
    rw [hdisk, hmemory]
    exact ⟨rfl, h⟩

end Mirrors

/-! ## Runs -/

open StoreCommand (answers)

variable {keys : Set String} {disk : DirectoryStore} {memory : MemoryStore}

/-- Each command is answered alike and leaves stores that go on doing so. -/
theorem Mirrors.perform (h : Mirrors keys disk memory) (hkeys : Apart keys) {command : StoreCommand}
    (hcommand : ∀ key ∈ command.object?, key ∈ keys) :
    (command.perform disk).1 = (command.perform memory).1 ∧
      Mirrors keys (command.perform disk).2 (command.perform memory).2 := by
  cases command with
  | write key data =>
      obtain ⟨hanswer, hafter⟩ := h.write hkeys (hcommand key rfl) data
      exact ⟨congrArg StoreAnswer.done hanswer, hafter⟩
  | remove key =>
      obtain ⟨hanswer, hafter⟩ := h.remove hkeys (hcommand key rfl)
      exact ⟨congrArg StoreAnswer.done hanswer, hafter⟩
  | read key => exact ⟨congrArg StoreAnswer.content (h.read_eq hkeys (hcommand key rfl)), h⟩
  | has key => exact ⟨congrArg StoreAnswer.stored (h.has_eq hkeys (hcommand key rfl)), h⟩
  | list start => exact ⟨congrArg StoreAnswer.keys (h.keys_eq start), h⟩

theorem Mirrors.answers_eq {commands : List StoreCommand} (h : Mirrors keys disk memory) (hkeys : Apart keys)
    (hcommands : ∀ command ∈ commands, ∀ key ∈ command.object?, key ∈ keys) :
    answers commands disk = answers commands memory := by
  induction commands generalizing disk memory with
  | nil => rfl
  | cons command rest ih =>
      obtain ⟨hfirst, hrest⟩ := List.forall_mem_cons.1 hcommands
      obtain ⟨hanswer, hafter⟩ := h.perform hkeys hfirst
      rw [answers, answers, hanswer, ih hafter hrest]

/-- A store on disk and a store in memory, both empty, answer every run of commands alike if the keys of the
objects that it is about are plain and none of them stands above another. -/
theorem answers_disk_eq_answers_memory {commands : List StoreCommand} {disk : DirectoryStore}
    (hempty : disk.tree = { limits := .unlimited })
    (hplain : ∀ key ∈ commands.filterMap StoreCommand.object?, Key.IsPlain key)
    (hapart : ∀ key ∈ commands.filterMap StoreCommand.object?,
      ∀ other ∈ commands.filterMap StoreCommand.object?, ¬Key.IsAbove key other) :
    answers commands disk = answers commands MemoryStore.empty := by
  have hmirrors : Mirrors {key | key ∈ commands.filterMap StoreCommand.object?} disk .empty := .of_empty hempty
  refine hmirrors.answers_eq ⟨hplain, hapart⟩ fun command hcommand key hkey => ?_
  exact List.mem_filterMap.2 ⟨command, hcommand, hkey⟩

/-- A listing may start with anything, and a key may go and come back. -/
theorem answers_disk_eq_answers_memory_of_siblings :
    let commands : List StoreCommand :=
      [.remove "a/b", .write "a/b" "first", .list "a\x00", .write "a/c" "second", .list "a/",
        .remove "a/b", .read "a/b", .has "a/c", .list ""]
    let disk : DirectoryStore := { rootPath := "objects", tree := { limits := .unlimited } }
    (∀ key ∈ commands.filterMap StoreCommand.object?, Key.IsPlain key) ∧
      (∀ key ∈ commands.filterMap StoreCommand.object?,
        ∀ other ∈ commands.filterMap StoreCommand.object?, ¬Key.IsAbove key other) ∧
      answers commands disk = answers commands MemoryStore.empty := by
  intro commands disk
  have hkeys : ∀ key ∈ commands.filterMap StoreCommand.object?, key = "a/b" ∨ key = "a/c" := by decide
  have hplain : ∀ key ∈ commands.filterMap StoreCommand.object?, Key.IsPlain key := fun key hkey => by
    rcases hkeys key hkey with rfl | rfl <;> exact ⟨by decide, by decide⟩
  have hapart : ∀ key ∈ commands.filterMap StoreCommand.object?,
      ∀ other ∈ commands.filterMap StoreCommand.object?, ¬Key.IsAbove key other := by
    intro key hkey other hother habove
    have hsegments := habove.1
    have hne := habove.2
    revert hsegments hne
    rcases hkeys key hkey with rfl | rfl <;> rcases hkeys other hother with rfl | rfl <;> decide
  exact ⟨hplain, hapart, answers_disk_eq_answers_memory rfl hplain hapart⟩

end VersionControl
