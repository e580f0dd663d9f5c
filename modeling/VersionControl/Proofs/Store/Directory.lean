import VersionControl.Proofs.Store.Laws
import VersionControl.Proofs.Store.TreeChanges
import VersionControl.Store.Directory

/-!
# Calls of the store on disk

What a write and a removal of a plain key do to a regular tree. A write that fails leaves every file that is
not a staging file as it was. A directory that stands under the name of the staging file is left alone, and the
write fails.
-/

namespace VersionControl.DirectoryStore

open FileTree (Regular)
open ObjectStore (ChangesOnly SameContent)

variable {store : DirectoryStore} {key data : String}

/-! ## Paths on disk -/

theorem onDisk_eq (h : '\x00' ∉ key.toList) : onDisk key = key := by
  rw [onDisk, Text.beforeFirst, List.takeWhile_eq_self_iff.2, String.ofList_toList]
  intro c hc
  simpa using fun heq : c = '\x00' => h (heq ▸ hc)

theorem onDisk_stagingName (h : Key.IsPlain key) (serial : Nat) :
    onDisk (Key.stagingName key serial) = Key.stagingName key serial :=
  onDisk_eq (h.unbroken_stagingName serial)

theorem directoriesAbove_eq (h : Key.IsPlain key) : directoriesAbove key = Key.ancestors key := by
  rw [directoriesAbove]
  refine (List.map_congr_left fun dir hdir => ?_).trans (List.map_id _)
  exact onDisk_eq (h.of_mem_ancestors hdir).unbroken

/-! ## Looking -/

theorem has_iff (h : store.tree.Regular) (hkey : Key.IsPlain key) :
    store.has key = true ↔ ∃ content, store.tree.nodes.get? key = some (.file content) := by
  simp only [has, hkey.storable, onDisk_eq hkey.unbroken, Bool.true_and, Option.isSome_iff_exists,
    h.file?_eq_some_iff hkey.named]

theorem read_eq (h : store.tree.Regular) (hkey : Key.IsPlain key) : store.read key =
    match store.tree.nodes.get? key with
    | some (.file content) => .ok content
    | some .directory => .ok ""
    | none => .error (.storage (.keyNotFound key)) := by
  simp only [read, hkey.storable, onDisk_eq hkey.unbroken, Bool.not_true, Bool.false_eq_true, if_false]
  cases hget : store.tree.nodes.get? key with
  | some node =>
      rw [(h.lookup_eq_found_iff hkey.named).2 hget]
      cases node <;> rfl
  | none =>
      have hnone : ∀ node, store.tree.lookup key ≠ .found node := fun node hfound => by
        simp [(h.lookup_eq_found_iff hkey.named).1 hfound] at hget
      cases hlookup : store.tree.lookup key with
      | found node => exact absurd hlookup (hnone node)
      | missing | refused fault => rfl

section Congruence

variable {after : DirectoryStore} (h : store.tree.Regular) (hafter : after.tree.Regular)
  (hunbroken : '\x00' ∉ key.toList)
  (hget : Key.IsPlain key → after.tree.nodes.get? key = store.tree.nodes.get? key)

include h hafter hunbroken hget

theorem has_congr : after.has key = store.has key := by
  cases hstorable : Key.isStorable key with
  | false => simp [has, hstorable]
  | true =>
      have hplain : Key.IsPlain key := ⟨hstorable, hunbroken⟩
      rw [Bool.eq_iff_iff, has_iff hafter hplain, has_iff h hplain, hget hplain]

theorem read_congr : after.read key = store.read key := by
  cases hstorable : Key.isStorable key with
  | false => simp [read, hstorable]
  | true =>
      have hplain : Key.IsPlain key := ⟨hstorable, hunbroken⟩
      rw [read_eq hafter hplain, read_eq h hplain, hget hplain]

end Congruence

/-! ## Writing -/

theorem write_eq (store : DirectoryStore) (hkey : Key.IsPlain key) (data : String) : store.write key data =
    match store.tree.makeDirectories (Key.ancestors key) with
    | none => (.error (.storage (.cannotCreateDirectory (store.pathOf (Key.parent key)))), store)
    | some prepared =>
      let staging := Key.stagingName key store.staged
      let next := { store with tree := prepared, staged := store.staged + 1 }
      match prepared.putFile staging data with
      | none => (.error (.storage (.cannotOpen (store.pathOf staging))), next)
      | some filled => match filled.moveFile staging key with
        | some moved => (.ok (), { next with tree := moved })
        | none => (.error (.storage (.cannotMove key)), { next with tree := filled.drop staging }) := by
  simp only [write, writeWithin, hkey.storable, directoriesAbove_eq hkey, onDisk_stagingName hkey,
    onDisk_eq hkey.unbroken, Bool.not_true, Bool.false_eq_true, if_false, Option.any_none]
  rfl

/-- No directory stands under a name that a staging file of the key can have. -/
def Stages (store : DirectoryStore) (key : String) : Prop :=
  ∀ serial, store.tree.nodes.get? (Key.stagingName key serial) ≠ some .directory

theorem stage_of_open (h : store.tree.Regular) (hkey : Key.IsPlain key) (hopen : store.tree.Open key)
    (hvacant : store.tree.nodes.get? (Key.stagingName key store.staged) ≠ some .directory) (data : String) :
    ∃ made filled : FileTree, store.tree.makeDirectories (Key.ancestors key) = some made ∧
      made.putFile (Key.stagingName key store.staged) data = some filled ∧ filled.Regular ∧
      filled.root = .directory ∧ ∀ path, filled.nodes.get? path =
        if Key.stagingName key store.staged = path then some (.file data)
        else if path ∈ Key.ancestors key then some .directory
        else store.tree.nodes.get? path := by
  obtain ⟨made, hmade, hregular, hroot, hnodes⟩ := h.makeDirectories_of_open hkey hopen
  have habove : ∀ dir ∈ Key.ancestors (Key.stagingName key store.staged),
      made.nodes.get? dir = some .directory := fun dir hdir => by
    rw [Key.ancestors_stagingName] at hdir
    rw [hnodes, if_pos hdir]
  have hmadeVacant : made.nodes.get? (Key.stagingName key store.staged) ≠ some .directory := by
    rwa [hnodes, if_neg fun hmem => (hkey.of_mem_ancestors hmem).ne_stagingName key store.staged rfl]
  have hput := hregular.putFile_eq (hkey.named_stagingName store.staged) hroot habove hmadeVacant data
  have hfilled := hregular.insertFile hroot habove hmadeVacant (hkey.unbroken_stagingName store.staged) data
  refine ⟨made, _, hmade, hput, hfilled, hroot, fun path => ?_⟩
  rw [Dict.get?_insert, hnodes]

/-- A file is put at a plain key by way of its staging file. -/
theorem write_of_accepts (h : store.tree.Regular) (hkey : Key.IsPlain key) (haccepts : store.tree.Accepts key)
    (hstaging : store.tree.nodes.get? (Key.stagingName key store.staged) ≠ some .directory) (data : String) :
    ∃ tree : FileTree,
      store.write key data = (.ok (), { store with tree, staged := store.staged + 1 }) ∧ tree.Regular ∧
      ∀ path, tree.nodes.get? path =
        if key = path then some (.file data)
        else if Key.stagingName key store.staged = path then none
        else if path ∈ Key.ancestors key then some .directory
        else store.tree.nodes.get? path := by
  obtain ⟨hopen, hvacant⟩ := haccepts
  obtain ⟨made, filled, hmade, hput, hfilled, hroot, hnodes⟩ := stage_of_open h hkey hopen hstaging data
  have hne : Key.stagingName key store.staged ≠ key := fun heq => hkey.ne_stagingName key store.staged heq.symm
  have hstaged : filled.nodes.get? (Key.stagingName key store.staged) = some (.file data) := by
    rw [hnodes, if_pos rfl]
  have hfree : filled.nodes.get? key ≠ some .directory := by
    rwa [hnodes, if_neg hne, if_neg (Key.self_not_mem_ancestors key)]
  have hmove := hfilled.moveFile_eq (hkey.named_stagingName store.staged) hkey.named hstaged hfree
  have hcleared : (filled.drop (Key.stagingName key store.staged)).Regular := hfilled.drop_file hstaged
  have hwrite := store.write_eq hkey data
  simp only [hmade, hput, hmove] at hwrite
  refine ⟨_, hwrite, ?_, fun path => ?_⟩
  · refine hcleared.insertFile hroot (fun dir hdir => ?_) (fun hdirectory => ?_) hkey.unbroken data
    · have hdirne : Key.stagingName key store.staged ≠ dir := fun heq =>
        (hkey.of_mem_ancestors hdir).ne_stagingName key store.staged heq.symm
      rw [FileTree.get?_drop, if_neg hdirne, hnodes, if_neg hdirne, if_pos hdir]
    · exact hfree (FileTree.get?_of_drop hdirectory).2
  · rw [Dict.get?_insert, Dict.get?_erase, hnodes]
    split
    · rfl
    · split <;> rfl

/-- A directory under the name of the staging file stops the write before anything is changed: what is above
that directory is above the key, and all there. -/
theorem write_of_staging_directory (h : store.tree.Regular) (hkey : Key.IsPlain key)
    (hstaging : store.tree.nodes.get? (Key.stagingName key store.staged) = some .directory) (data : String) :
    ∃ error after, store.write key data = (.error error, after) ∧ after.tree = store.tree := by
  have habove := h.above hstaging
  rw [Key.ancestors_stagingName] at habove
  have hopen : store.tree.Open key :=
    ⟨.inl (h.rooted hstaging), fun dir hdir content hfile => by simp [habove dir hdir] at hfile⟩
  obtain ⟨made, hmade, hregular, hroot, hnodes⟩ := h.makeDirectories_of_open hkey hopen
  have heq : made = store.tree := by
    refine FileTree.eq_of_get? (hroot.trans (h.rooted hstaging).symm)
      (hregular.unlimited.trans h.unlimited.symm) fun path => ?_
    rw [hnodes]
    split
    case isTrue hmem => exact (habove path hmem).symm
    case isFalse => rfl
  have hwrite := store.write_eq hkey data
  simp only [hmade, heq, h.putFile_of_directory (hkey.named_stagingName store.staged) hstaging] at hwrite
  exact ⟨_, _, hwrite, rfl⟩

/-- A write that is not accepted fails, and at most sweeps away the file that its staging file replaced. -/
theorem write_of_not_accepts (h : store.tree.Regular) (hkey : Key.IsPlain key)
    (hrefused : ¬store.tree.Accepts key)
    (hstaging : store.tree.nodes.get? (Key.stagingName key store.staged) ≠ some .directory) (data : String) :
    ∃ error after, store.write key data = (.error error, after) ∧
      (after.tree = store.tree ∨ after.tree = store.tree.drop (Key.stagingName key store.staged)) := by
  have hwrite := store.write_eq hkey data
  by_cases hopen : store.tree.Open key
  · obtain ⟨made, filled, hmade, hput, hfilled, hroot, hnodes⟩ := stage_of_open h hkey hopen hstaging data
    have hne : Key.stagingName key store.staged ≠ key := fun heq =>
      hkey.ne_stagingName key store.staged heq.symm
    have hdirectory : store.tree.nodes.get? key = some .directory :=
      Classical.byContradiction fun hvacant => hrefused ⟨hopen, hvacant⟩
    have hmove : filled.moveFile (Key.stagingName key store.staged) key = none := by
      refine hfilled.moveFile_of_directory hkey.named ?_
      rw [hnodes, if_neg hne, if_neg (Key.self_not_mem_ancestors key), hdirectory]
    simp only [hmade, hput, hmove] at hwrite
    refine ⟨_, _, hwrite, .inr ?_⟩
    refine FileTree.eq_of_get? (hroot.trans (h.rooted hdirectory).symm)
      (hfilled.unlimited.trans h.unlimited.symm) fun path => ?_
    rw [FileTree.get?_drop, FileTree.get?_drop, hnodes]
    split
    · rfl
    · split
      · rename_i hmem
        exact (h.above hdirectory path hmem).symm
      · rfl
  · rcases h.makeDirectories_of_not_open hkey hopen with hmade | hmade
    · have hclosed : ¬store.tree.Open (Key.stagingName key store.staged) := fun hstaged =>
        hopen ⟨hstaged.root, Key.ancestors_stagingName key store.staged ▸ hstaged.above⟩
      have hput := h.putFile_of_not_open (hkey.named_stagingName store.staged) hclosed data
      simp only [hmade, hput] at hwrite
      exact ⟨_, _, hwrite, .inl rfl⟩
    · simp only [hmade] at hwrite
      exact ⟨_, _, hwrite, .inl rfl⟩

/-- The only directories that a write makes are those above its key. -/
theorem directory_of_write (h : store.tree.Regular) (hkey : Key.IsPlain key) {path : String}
    (hdirectory : (store.write key data).2.tree.nodes.get? path = some .directory) :
    path ∈ Key.ancestors key ∨ store.tree.nodes.get? path = some .directory := by
  by_cases hstaging : store.tree.nodes.get? (Key.stagingName key store.staged) = some .directory
  · obtain ⟨error, after, hwrite, htree⟩ := write_of_staging_directory h hkey hstaging data
    rw [hwrite, htree] at hdirectory
    exact .inr hdirectory
  · by_cases haccepts : store.tree.Accepts key
    · obtain ⟨tree, hwrite, -, hnodes⟩ := write_of_accepts h hkey haccepts hstaging data
      rw [hwrite, hnodes] at hdirectory
      split at hdirectory
      · cases hdirectory
      · split at hdirectory
        · cases hdirectory
        · split at hdirectory
          · exact .inl ‹_›
          · exact .inr hdirectory
    · obtain ⟨error, after, hwrite, htree | htree⟩ := write_of_not_accepts h hkey haccepts hstaging data
      · rw [hwrite, htree] at hdirectory
        exact .inr hdirectory
      · rw [hwrite, htree] at hdirectory
        exact .inr (FileTree.get?_of_drop hdirectory).2

/-! ## Removing -/

theorem remove_eq (h : store.tree.Regular) (hkey : Key.IsPlain key)
    (hfile : store.tree.nodes.get? key = some (.file data)) :
    store.remove key =
      (.ok (), { store with tree := (store.tree.drop key).prune (Key.ancestors key).reverse }) := by
  simp [remove, hkey.storable, onDisk_eq hkey.unbroken, directoriesAbove_eq hkey,
    h.removeNode_eq hkey.named hfile]

theorem remove_of_file (h : store.tree.Regular) (hkey : Key.IsPlain key)
    (hfile : store.tree.nodes.get? key = some (.file data)) :
    ∃ tree : FileTree, store.remove key = (.ok (), { store with tree }) ∧ tree.Regular ∧
      tree.nodes.get? key = none ∧ ∀ path, key ≠ path →
        tree.nodes.get? path = store.tree.nodes.get? path ∨
          store.tree.nodes.get? path = some .directory ∧ tree.nodes.get? path = none := by
  obtain ⟨hregular, -, hnodes⟩ := h.prune_drop hfile
  refine ⟨_, remove_eq h hkey hfile, hregular, ?_, fun path hne => ?_⟩
  · rcases hnodes key with heq | ⟨-, heq⟩
    · simpa using heq
    · exact heq
  · simpa [hne] using hnodes path

/-! ## Laws -/

theorem changesOnly_of_files {after : DirectoryStore} (h : store.tree.Regular) (hafter : after.tree.Regular)
    (hfiles : ∀ other, Key.IsPlain other → other ≠ key → ∀ content,
      after.tree.nodes.get? other = some (.file content) ↔
        store.tree.nodes.get? other = some (.file content)) :
    ChangesOnly key store after where
  has {other} hother hne := Bool.eq_iff_iff.2 <|
    (has_iff hafter hother).trans <| (exists_congr (hfiles other hother hne)).trans (has_iff h hother).symm
  read {other} hother hne hstored := by
    obtain ⟨content, hfile⟩ := (has_iff h hother).1 hstored
    have hkept := (hfiles other hother hne content).2 hfile
    simp only [ObjectStore.read, read_eq h hother, read_eq hafter hother, hfile, hkept]

theorem keys_drop_staging {after : DirectoryStore} {serial : Nat}
    (htree : after.tree = store.tree.drop (Key.stagingName key serial)) (start : String) :
    after.keys start = store.keys start := by
  have hkeys : (after.tree.files.filter fun key =>
        !Key.isStagingName (Key.baseName key) && Text.startsWith start key) =
      store.tree.files.filter fun key =>
        !Key.isStagingName (Key.baseName key) && Text.startsWith start key := by
    rw [htree, FileTree.files_drop, List.filter_filter]
    refine List.filter_congr fun path _ => ?_
    by_cases heq : path = Key.stagingName key serial
    · simp [heq, Key.baseName_stagingName]
    · simp [heq]
  have hroot : after.tree.root = store.tree.root := by rw [htree]; rfl
  simp only [keys, hkeys, hroot]

theorem unbroken_of_mem_keys (h : store.tree.Regular) {start : String} {names : List String}
    (hkeys : store.keys start = .ok names) (hmem : key ∈ names) : '\x00' ∉ key.toList := by
  rw [keys] at hkeys
  split at hkeys
  case h_1 =>
    cases hkeys
    obtain ⟨content, hget⟩ := FileTree.mem_files.1 (List.mem_filter.1 hmem).1
    exact h.unbroken hget
  case h_2 => simp at hkeys
  all_goals
    cases hkeys
    simp at hmem

/-- Staging files are no objects: a store without one of them has the same content. -/
theorem sameContent_drop_staging {after : DirectoryStore} {serial : Nat} (h : store.tree.Regular)
    (hvacant : store.tree.nodes.get? (Key.stagingName key serial) ≠ some .directory)
    (htree : after.tree = store.tree.drop (Key.stagingName key serial)) :
    after.tree.Regular ∧ SameContent after store := by
  have hafter : after.tree.Regular := htree ▸ h.drop fun hget => h.not_mem_ancestors hvacant hget
  have hget {other : String} (hother : Key.IsPlain other) :
      after.tree.nodes.get? other = store.tree.nodes.get? other := by
    rw [htree, FileTree.get?_drop, if_neg (Ne.symm (hother.ne_stagingName key serial))]
  have hread {other : String} (hother : '\x00' ∉ other.toList) : after.read other = store.read other :=
    read_congr h hafter hother hget
  have hkeys : ∀ start, after.keys start = store.keys start := keys_drop_staging htree
  refine ⟨hafter, hkeys, ?_, fun hother => has_congr h hafter hother hget, hread⟩
  simp only [ObjectStore.dump, ObjectStore.keys, hkeys]
  cases hnames : store.keys "" with
  | error error => rfl
  | ok names =>
      refine congrArg Except.ok (List.map_congr_left fun other hmem => ?_)
      exact congrArg (Prod.mk other) (hread (unbroken_of_mem_keys h hnames hmem))

theorem sameContent_of_tree_eq {after : DirectoryStore} (htree : after.tree = store.tree) :
    SameContent after store := by
  have hkeys : after.keys = store.keys := by
    funext start
    simp only [keys, htree]
  have hread : after.read = store.read := by
    funext key
    simp only [read, htree]
  have hhas : after.has = store.has := by
    funext key
    simp only [has, htree]
  refine ⟨congrFun hkeys, ?_, fun _ => congrFun hhas _, fun _ => congrFun hread _⟩
  simp only [ObjectStore.dump, ObjectStore.keys, ObjectStore.read, hkeys, hread]

theorem has_eq_false_of_not_accepts (h : store.tree.Regular) (hkey : Key.IsPlain key)
    (hrefused : ¬store.tree.Accepts key) : store.has key = false := by
  rw [Bool.eq_false_iff]
  intro hstored
  obtain ⟨content, hfile⟩ := (has_iff h hkey).1 hstored
  exact hrefused ⟨h.open_of_mem hfile, by simp [hfile]⟩

instance : LawfulStore DirectoryStore where
  Sound store := store.tree.Regular
  Stages := Stages
  write_cases {store key} h hkey data := by
    by_cases hstaging : store.tree.nodes.get? (Key.stagingName key store.staged) = some .directory
    · obtain ⟨error, after, hwrite, htree⟩ := write_of_staging_directory h hkey hstaging data
      exact .inl ⟨error, after, hwrite, htree ▸ h, sameContent_of_tree_eq htree,
        fun hstages => absurd hstaging (hstages store.staged)⟩
    by_cases haccepts : store.tree.Accepts key
    · obtain ⟨tree, hwrite, hregular, hnodes⟩ := write_of_accepts h hkey haccepts hstaging data
      have hfile : tree.nodes.get? key = some (.file data) := by rw [hnodes, if_pos rfl]
      refine .inr ⟨_, hwrite, hregular, ?_, (has_iff hregular hkey).2 ⟨data, hfile⟩, ?_⟩
      · refine changesOnly_of_files h hregular fun other hother hne content => ?_
        rw [hnodes, if_neg (Ne.symm hne), if_neg (Ne.symm (hother.ne_stagingName key store.staged))]
        split
        case isTrue hmem => simp [haccepts.1.above other hmem content]
        case isFalse => exact Iff.rfl
      · exact (read_eq hregular hkey).trans (by rw [hfile])
    · obtain ⟨error, after, hwrite, htree⟩ := write_of_not_accepts h hkey haccepts hstaging data
      have hmissing := has_eq_false_of_not_accepts h hkey haccepts
      rcases htree with htree | htree
      · exact .inl ⟨error, after, hwrite, htree ▸ h, sameContent_of_tree_eq htree, fun _ => hmissing⟩
      · obtain ⟨hafter, hsame⟩ := sameContent_drop_staging h hstaging htree
        exact .inl ⟨error, after, hwrite, hafter, hsame, fun _ => hmissing⟩
  remove_of_has {store key} h hkey hstored := by
    obtain ⟨data, hfile⟩ := (has_iff h hkey).1 hstored
    obtain ⟨tree, hremove, hregular, hgone, hnodes⟩ := remove_of_file h hkey hfile
    refine ⟨_, hremove, hregular, ?_, ?_⟩
    · refine changesOnly_of_files h hregular fun other _ hne content => ?_
      rcases hnodes other (Ne.symm hne) with heq | ⟨hdirectory, hpruned⟩
      · rw [heq]
      · simp [hdirectory, hpruned]
    · rw [Bool.eq_false_iff]
      intro hstill
      obtain ⟨content, hget⟩ := (has_iff hregular hkey).1 hstill
      simp [hgone] at hget
  stages_write {store key other} h hkey data hstages serial hdirectory := by
    rcases directory_of_write h hkey hdirectory with hmem | hbefore
    · exact (hkey.of_mem_ancestors hmem).ne_stagingName other serial rfl
    · exact hstages serial hbefore
  stages_remove {store key other} h hkey hstored hstages serial hdirectory := by
    obtain ⟨data, hfile⟩ := (has_iff h hkey).1 hstored
    obtain ⟨tree, hremove, -, hgone, hnodes⟩ := remove_of_file h hkey hfile
    simp only [ObjectStore.remove, hremove] at hdirectory
    by_cases heq : key = Key.stagingName other serial
    · rw [← heq, hgone] at hdirectory
      cases hdirectory
    · rcases hnodes _ heq with hkept | ⟨hbefore, -⟩
      · exact hstages serial (hkept ▸ hdirectory)
      · exact hstages serial hbefore

end VersionControl.DirectoryStore
