import VersionControl.Proofs.Store.Flat

/-!
# Reading what is stored

A store reads a key truly if it reads what is stored there and reports what is not. The store on disk does so
except where the path of a key leads to a directory, which opens like an empty file: that is, above its objects.
-/

namespace VersionControl

/-- What is promised of reading a key. -/
structure ObjectStore.ReadsTruly {σ : Type} [ObjectStore σ] (store : σ) (key : String) : Prop where
  read_iff : (∃ content, read store key = .ok content) ↔ has store key = true
  missing : has store key = false → read store key = .error (.storage (.keyNotFound key))

namespace DirectoryStore

open ObjectStore (stored Puts ReadsTruly)

variable {store after : DirectoryStore} {key other data : String}

/-! ## Directories -/

/-- On any disk it is directories alone that are not read truly. -/
theorem readsTruly_iff (hstorable : Key.isStorable key = true) :
    ReadsTruly store key ↔ store.tree.isDirectory (onDisk key) = false := by
  have hhas : ObjectStore.has store key = (store.tree.file? (onDisk key)).isSome := by
    simp [ObjectStore.has, has, hstorable]
  rw [FileTree.file?] at hhas
  rw [FileTree.isDirectory, decide_eq_false_iff_not]
  cases hlookup : store.tree.lookup (onDisk key) with
  | found node =>
      rw [hlookup] at hhas
      cases node with
      | file content =>
          have hread : ObjectStore.read store key = .ok content := by
            simp [ObjectStore.read, read, hstorable, hlookup]
          exact iff_of_true ⟨by simp [hhas, hread], by simp [hhas]⟩ (by simp)
      | directory =>
          have hread : ObjectStore.read store key = .ok "" := by
            simp [ObjectStore.read, read, hstorable, hlookup]
          refine iff_of_false (fun htruly => ?_) (by simp)
          simpa [hhas] using htruly.read_iff.1 ⟨"", hread⟩
  | missing | refused fault =>
      have hread : ObjectStore.read store key = .error (.storage (.keyNotFound key)) := by
        simp [ObjectStore.read, read, hstorable, hlookup]
      rw [hlookup] at hhas
      exact iff_of_true ⟨by simp [hhas, hread], fun _ => hread⟩ (by simp)

theorem get?_eq_directory_iff (h : store.tree.Tidy) :
    store.tree.nodes.get? key = some .directory ↔ ∃ below ∈ stored store, Key.IsAbove key below := by
  simp only [mem_stored_iff h, Key.isAbove_iff]
  constructor
  · intro hdirectory
    obtain ⟨below, content, hfile, hmem⟩ := h.exists_file_below hdirectory
    exact ⟨below, ⟨content, hfile⟩, hmem⟩
  · rintro ⟨below, ⟨content, hfile⟩, hmem⟩
    exact h.regular.above hfile key hmem

/-! ## Reading in a tidy tree -/

section Tidy

variable (h : store.tree.Tidy) (hkey : Key.IsPlain key)

include h hkey

theorem readsTruly_iff_of_tidy : ReadsTruly store key ↔ ∀ below ∈ stored store, ¬Key.IsAbove key below := by
  rw [readsTruly_iff hkey.storable, onDisk_eq hkey.unbroken, Bool.eq_false_iff, Ne,
    h.regular.isDirectory_iff hkey.named, get?_eq_directory_iff h]
  exact ⟨fun hnone below hmem habove => hnone ⟨below, hmem, habove⟩,
    fun hnone ⟨below, hmem, habove⟩ => hnone below hmem habove⟩

theorem read_of_above (hbelow : ∃ below ∈ stored store, Key.IsAbove key below) :
    ObjectStore.read store key = .ok "" :=
  (read_eq h.regular hkey).trans (by rw [(get?_eq_directory_iff h).2 hbelow])

theorem read_of_missing (hmissing : key ∉ stored store)
    (hbelow : ∀ below ∈ stored store, ¬Key.IsAbove key below) :
    ObjectStore.read store key = .error (.storage (.keyNotFound key)) := by
  refine ((readsTruly_iff_of_tidy h hkey).2 hbelow).missing (Bool.eq_false_iff.2 fun hhas => ?_)
  exact hmissing ⟨hkey.unbroken, hhas⟩

/-- An object put under one key shows under another only where it turns a missing key into a directory. -/
theorem read_eq_read_iff_of_puts (hafter : after.tree.Tidy) (hputs : Puts other data store after)
    (hfree : store.Free other) (hne : key ≠ other) :
    ObjectStore.read after key = ObjectStore.read store key ↔
      (Key.IsAbove key other → ∃ below ∈ stored store, Key.IsAbove key below) := by
  by_cases hstored : key ∈ stored store
  · exact iff_of_true (hputs.others key hstored hne) fun habove => absurd habove (hfree key hstored).1
  by_cases hbelow : ∃ below ∈ stored store, Key.IsAbove key below
  · have hstill : ∃ below ∈ stored after, Key.IsAbove key below := by
      obtain ⟨below, hmem, habove⟩ := hbelow
      exact ⟨below, hputs.stored ▸ Set.mem_insert_of_mem other hmem, habove⟩
    refine iff_of_true ?_ fun _ => hbelow
    rw [read_of_above h hkey hbelow, read_of_above hafter hkey hstill]
  have hbefore := read_of_missing h hkey hstored fun below hmem habove => hbelow ⟨below, hmem, habove⟩
  by_cases habove : Key.IsAbove key other
  · have hmade : ∃ below ∈ stored after, Key.IsAbove key below :=
      ⟨other, hputs.stored ▸ Set.mem_insert other _, habove⟩
    refine iff_of_false ?_ fun hcovered => hbelow (hcovered habove)
    rw [hbefore, read_of_above hafter hkey hmade]
    exact fun heq => nomatch heq
  · refine iff_of_true ?_ fun hcontra => absurd hcontra habove
    rw [hbefore]
    refine read_of_missing hafter hkey ?_ fun below hmem hcontra => ?_
    · rw [hputs.stored, Set.mem_insert_iff, not_or]
      exact ⟨hne, hstored⟩
    · rw [hputs.stored] at hmem
      rcases Set.mem_insert_iff.1 hmem with rfl | hmem
      · exact habove hcontra
      · exact hbelow ⟨below, hmem, hcontra⟩

end Tidy

/-! ## Runs -/

/-- Wherever a run of commands has led, a key is read truly exactly if its path does not lead to a directory.
On a disk without limits that means that no object lies below the key, and a write then changes what is read
under another key exactly if it puts the first object below that key. -/
theorem readsTruly_run (commands : List StoreCommand) (store : DirectoryStore) :
    let reached := StoreCommand.run commands store
    (∀ key, Key.isStorable key = true →
      (ReadsTruly reached key ↔ reached.tree.isDirectory (onDisk key) = false)) ∧
    (store.tree = { limits := .unlimited } → (∀ command ∈ commands, '\x00' ∉ command.key.toList) →
      ∀ key, Key.IsPlain key →
        (ReadsTruly reached key ↔ ∀ below ∈ stored reached, ¬Key.IsAbove key below) ∧
        ∀ other data after, '\x00' ∉ other.toList → ObjectStore.write other data reached = (.ok (), after) →
          key ≠ other →
          (ObjectStore.read after key = ObjectStore.read reached key ↔
            (Key.IsAbove key other → ∃ below ∈ stored reached, Key.IsAbove key below))) := by
  intro reached
  refine ⟨fun key => readsTruly_iff, fun hempty hunbroken key hkey => ?_⟩
  have htidy : reached.tree.Tidy := tidy_run (.of_empty hempty) hunbroken
  refine ⟨readsTruly_iff_of_tidy htidy hkey, fun other data after hother hwrite hne => ?_⟩
  rcases write_cases_of_tidy htidy hother data with
    ⟨-, hfree, next, hwritten, hnext, hputs⟩ | ⟨-, error, next, hfailed, -⟩
  · cases hwritten.symm.trans hwrite
    exact read_eq_read_iff_of_puts htidy hkey hnext hputs hfree hne
  · cases hfailed.symm.trans hwrite

/-- Once there is an object below `a`, another one there does not show under `a`. -/
theorem readsTruly_run_of_siblings :
    let commands : List StoreCommand := [.write "a/b" "first", .remove "a/b", .write "a/c" "second"]
    let store : DirectoryStore := { rootPath := "objects", tree := { limits := .unlimited } }
    let reached := StoreCommand.run commands store
    (∀ command ∈ commands, '\x00' ∉ command.key.toList) ∧ Key.IsPlain "a" ∧ ¬ReadsTruly reached "a" ∧
      ∃ after, ObjectStore.write "a/d" "third" reached = (.ok (), after) ∧
        ObjectStore.read after "a" = ObjectStore.read reached "a" := by
  intro commands store reached
  have hunbroken : ∀ command ∈ commands, '\x00' ∉ command.key.toList := by decide
  have hkey : Key.IsPlain "a" := ⟨by decide, by decide⟩
  have hstored : "a/c" ∈ stored reached := ⟨by decide, by decide +kernel⟩
  have habove : Key.IsAbove "a" "a/c" := ⟨by decide, by decide⟩
  have hok : (ObjectStore.write "a/d" "third" reached).1 = .ok () := by decide +kernel
  obtain ⟨hread, hframe⟩ := (readsTruly_run commands store).2 rfl hunbroken "a" hkey
  refine ⟨hunbroken, hkey, fun htruly => hread.1 htruly "a/c" hstored habove, ?_⟩
  cases hwrite : ObjectStore.write "a/d" "third" reached with
  | mk answer after =>
      rw [hwrite] at hok
      cases hok
      refine ⟨after, rfl, ?_⟩
      exact (hframe "a/d" "third" after (by decide) hwrite (by decide)).2 fun _ => ⟨"a/c", hstored, habove⟩

/-- The directory above an object is read as an empty object that is not there. -/
theorem not_readsTruly_run_of_object_below :
    let reached := StoreCommand.run [.write "a/b" "x"] (DirectoryStore.empty "objects")
    Key.isStorable "a" = true ∧ ObjectStore.has reached "a" = false ∧
      (ObjectStore.read reached "a").toOption = some "" ∧ ¬ReadsTruly reached "a" := by
  intro reached
  refine ⟨by decide, by decide +kernel, by decide +kernel, fun htruly => ?_⟩
  have hdirectory : reached.tree.isDirectory (onDisk "a") = true := by decide +kernel
  rw [(readsTruly_iff (by decide)).1 htruly] at hdirectory
  cases hdirectory

end DirectoryStore

end VersionControl
