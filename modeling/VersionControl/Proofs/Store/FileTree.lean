import VersionControl.Proofs.Dict
import VersionControl.Proofs.Key
import VersionControl.Store.FileTree

/-!
# Regular file trees

In a regular tree every entry stands in a directory, so that following a path comes to the entry under it.
What an operating system does to such a tree is then said by what it does to the entries.
-/

namespace VersionControl.FileTree

/-- A tree on a disk without limits, in which every entry stands in a directory of that disk. -/
structure Regular (tree : FileTree) : Prop where
  unlimited : tree.limits = .unlimited
  rooted : ∀ {path node}, tree.nodes.get? path = some node → tree.root = .directory
  above : ∀ {path node}, tree.nodes.get? path = some node →
    ∀ dir ∈ Key.ancestors path, tree.nodes.get? dir = some .directory
  unbroken : ∀ {path node}, tree.nodes.get? path = some node → '\x00' ∉ path.toList

variable {tree : FileTree} {path dir key content : String} {node : FileNode}

theorem Regular.of_empty (hlimits : tree.limits = .unlimited) (hempty : tree.nodes = .empty) :
    tree.Regular where
  unlimited := hlimits
  rooted hget := by simp [hempty] at hget
  above hget := by simp [hempty] at hget
  unbroken hget := by simp [hempty] at hget

theorem Regular.of_entries (hlimits : tree.limits = .unlimited) (hroot : tree.root = .directory)
    (habove : ∀ entry ∈ tree.nodes.entries, ∀ dir ∈ Key.ancestors entry.1, tree.nodes.get? dir = some .directory)
    (hunbroken : ∀ entry ∈ tree.nodes.entries, '\x00' ∉ entry.1.toList) : tree.Regular where
  unlimited := hlimits
  rooted _ := hroot
  above hget := habove _ (Dict.get?_eq_some_iff.1 hget)
  unbroken hget := hunbroken _ (Dict.get?_eq_some_iff.1 hget)

/-! ## Following a path -/

theorem step_eq (h : tree.limits = .unlimited) (hpath : Key.IsNamed path) :
    tree.step path = match tree.nodes.get? path with
      | some node => .found node
      | none => .missing := by
  simp only [step, hpath.baseName, fits, h, Limits.unlimited, Limits.allow]
  rfl

theorem lookup_eq_follow (h : tree.limits = .unlimited) (hroot : tree.root = .directory) :
    tree.lookup path = tree.follow path (Key.ancestors path) := by
  simp [lookup, h, hroot, Limits.unlimited, Limits.allow]

theorem follow_of_directories (h : tree.limits = .unlimited) {above : List String}
    (hnamed : ∀ dir ∈ above, Key.IsNamed dir)
    (habove : ∀ dir ∈ above, tree.nodes.get? dir = some .directory) :
    tree.follow path above = tree.step path := by
  induction above with
  | nil => rfl
  | cons dir rest ih =>
      rw [List.forall_mem_cons] at hnamed habove
      rw [follow, step_eq h hnamed.1, habove.1]
      exact ih hnamed.2 habove.2

/-- The first entry above that is missing stops the path if no file does. -/
theorem follow_of_no_file (h : tree.limits = .unlimited) {above : List String}
    (hnamed : ∀ dir ∈ above, Key.IsNamed dir)
    (hfile : ∀ dir ∈ above, ∀ content, tree.nodes.get? dir ≠ some (.file content))
    (hmissing : tree.step path = .missing) : tree.follow path above = .missing := by
  induction above with
  | nil => exact hmissing
  | cons dir rest ih =>
      rw [List.forall_mem_cons] at hnamed hfile
      rw [follow, step_eq h hnamed.1]
      cases hdir : tree.nodes.get? dir with
      | none => rfl
      | some node =>
          cases node with
          | directory => exact ih hnamed.2 hfile.2
          | file content => exact absurd hdir (hfile.1 content)

/-- A file above stops the path: what is above the file is all there. -/
theorem Regular.follow_of_file (h : tree.Regular) {above : List String}
    (hnamed : ∀ dir ∈ above, Key.IsNamed dir)
    (hnested : above.Pairwise (fun dir inner => dir ∈ Key.ancestors inner))
    (hfile : ∃ dir ∈ above, ∃ content, tree.nodes.get? dir = some (.file content)) :
    tree.follow path above = .refused .notDirectory := by
  induction above with
  | nil => simp at hfile
  | cons dir rest ih =>
      rw [List.forall_mem_cons] at hnamed
      obtain ⟨hinner, hrest⟩ := List.pairwise_cons.1 hnested
      have htail : (∃ d ∈ rest, ∃ content, tree.nodes.get? d = some (.file content)) →
          tree.nodes.get? dir = some .directory := by
        rintro ⟨d, hd, content, hget⟩
        exact h.above hget dir (hinner d hd)
      obtain ⟨d, hd, content, hget⟩ := hfile
      rw [follow, step_eq h.unlimited hnamed.1]
      rcases List.mem_cons.1 hd with rfl | hd
      · rw [hget]
      · rw [htail ⟨d, hd, content, hget⟩]
        exact ih hnamed.2 hrest ⟨d, hd, content, hget⟩

theorem Regular.lookup_of_file_above (h : tree.Regular) (hpath : Key.IsNamed path)
    (hfile : ∃ dir ∈ Key.ancestors path, ∃ content, tree.nodes.get? dir = some (.file content)) :
    tree.lookup path = .refused .notDirectory := by
  obtain ⟨dir, -, content, hget⟩ := id hfile
  rw [lookup_eq_follow h.unlimited (h.rooted hget)]
  exact h.follow_of_file (fun _ => hpath.of_mem_ancestors) (Key.ancestors_pairwise path) hfile

theorem Regular.lookup_of_clear (h : tree.Regular) (hpath : Key.IsNamed path)
    (hroot : tree.root = .directory)
    (hclear : ∀ dir ∈ Key.ancestors path, ∀ content, tree.nodes.get? dir ≠ some (.file content)) :
    tree.lookup path = match tree.nodes.get? path with
      | some node => .found node
      | none => .missing := by
  rw [lookup_eq_follow h.unlimited hroot]
  cases hget : tree.nodes.get? path with
  | none =>
      refine follow_of_no_file h.unlimited (fun _ => hpath.of_mem_ancestors) hclear ?_
      rw [step_eq h.unlimited hpath, hget]
  | some node =>
      rw [follow_of_directories h.unlimited (fun _ => hpath.of_mem_ancestors) (h.above hget),
        step_eq h.unlimited hpath, hget]

/-- Following a path comes to the entry under it, and to an entry only so. -/
theorem Regular.lookup_eq_found_iff (h : tree.Regular) (hpath : Key.IsNamed path) :
    tree.lookup path = .found node ↔ tree.nodes.get? path = some node := by
  by_cases hfile : ∃ dir ∈ Key.ancestors path, ∃ content, tree.nodes.get? dir = some (.file content)
  · rw [h.lookup_of_file_above hpath hfile]
    obtain ⟨dir, hdir, content, hget⟩ := hfile
    simp only [reduceCtorEq, false_iff]
    intro hnode
    rw [h.above hnode dir hdir] at hget
    simp at hget
  · by_cases hroot : tree.root = .directory
    · rw [h.lookup_of_clear hpath hroot fun dir hdir content hget => hfile ⟨dir, hdir, content, hget⟩]
      cases tree.nodes.get? path <;> simp
    · constructor
      · intro hfound
        simp only [lookup, h.unlimited, Limits.unlimited, Limits.allow, Option.all_none, Bool.not_true,
          Bool.false_eq_true, if_false] at hfound
        cases hkind : tree.root <;> simp_all
      · exact fun hget => absurd (h.rooted hget) hroot

theorem Regular.isDirectory_iff (h : tree.Regular) (hpath : Key.IsNamed path) :
    tree.isDirectory path = true ↔ tree.nodes.get? path = some .directory := by
  rw [isDirectory, decide_eq_true_eq, h.lookup_eq_found_iff hpath]

theorem Regular.file?_eq_some_iff (h : tree.Regular) (hpath : Key.IsNamed path) :
    tree.file? path = some content ↔ tree.nodes.get? path = some (.file content) := by
  rw [← h.lookup_eq_found_iff hpath, file?]
  split
  · rename_i found hlookup
    rw [hlookup]
    simp
  · rename_i hother
    simp only [reduceCtorEq, false_iff]
    exact hother content

/-! ## Entries that come and go -/

theorem Regular.withDirectories (h : tree.Regular) (hkey : Key.IsPlain key)
    {made : FileTree} (hroot : made.root = .directory) (hlimits : made.limits = tree.limits)
    (hnodes : ∀ path, made.nodes.get? path =
      if path ∈ Key.ancestors key then some .directory else tree.nodes.get? path) : made.Regular where
  unlimited := hlimits.trans h.unlimited
  rooted _ := hroot
  above {path node} hget dir hdir := by
    rw [hnodes] at hget ⊢
    split at hget
    case isTrue hmem => rw [if_pos (Key.mem_ancestors_trans hdir hmem)]
    case isFalse => rw [h.above hget dir hdir, ite_self]
  unbroken {path node} hget := by
    rw [hnodes] at hget
    split at hget
    case isTrue hmem => exact (hkey.of_mem_ancestors hmem).unbroken
    case isFalse => exact h.unbroken hget

theorem Regular.insertFile (h : tree.Regular) (hroot : tree.root = .directory)
    (habove : ∀ dir ∈ Key.ancestors path, tree.nodes.get? dir = some .directory)
    (hvacant : tree.nodes.get? path ≠ some .directory) (hunbroken : '\x00' ∉ path.toList) (content : String) :
    Regular { tree with nodes := tree.nodes.insert path (.file content) } where
  unlimited := h.unlimited
  rooted _ := hroot
  above {q node} hget dir hdir := by
    have hdirectory : tree.nodes.get? dir = some .directory := by
      rw [Dict.get?_insert] at hget
      split at hget
      case isTrue heq => exact habove dir (heq ▸ hdir)
      case isFalse => exact h.above hget dir hdir
    have hne : path ≠ dir := fun heq => hvacant (heq ▸ hdirectory)
    rw [Dict.get?_insert, if_neg hne]
    exact hdirectory
  unbroken {q node} hget := by
    rw [Dict.get?_insert] at hget
    split at hget
    case isTrue heq => exact heq ▸ hunbroken
    case isFalse => exact h.unbroken hget

@[simp] theorem get?_drop (tree : FileTree) (path q : String) :
    (tree.drop path).nodes.get? q = if path = q then none else tree.nodes.get? q :=
  Dict.get?_erase tree.nodes path q

theorem get?_of_drop {q : String} (h : (tree.drop path).nodes.get? q = some node) :
    path ≠ q ∧ tree.nodes.get? q = some node := by
  rw [get?_drop] at h
  split at h
  case isTrue => simp at h
  case isFalse hne => exact ⟨hne, h⟩

theorem files_drop (tree : FileTree) (path : String) :
    (tree.drop path).files = tree.files.filter (· ≠ path) := by
  simp only [files, FileTree.drop, Dict.erase, List.filter_map, List.filter_filter]
  refine congrArg _ (List.filter_congr fun e _ => ?_)
  exact Bool.and_comm _ _

theorem mem_files : path ∈ tree.files ↔ ∃ content, tree.nodes.get? path = some (.file content) := by
  rw [files, List.mem_map]
  constructor
  · rintro ⟨⟨_, node⟩, hmem, rfl⟩
    obtain ⟨hentry, hfile⟩ := List.mem_filter.1 hmem
    cases node with
    | directory => simp [FileNode.isFile] at hfile
    | file content => exact ⟨content, Dict.get?_eq_some_iff.2 hentry⟩
  · rintro ⟨content, hget⟩
    exact ⟨(path, .file content), List.mem_filter.2 ⟨Dict.get?_eq_some_iff.1 hget, rfl⟩, rfl⟩

theorem get?_of_step {content : String} (h : tree.step path = .found (.file content)) :
    tree.nodes.get? path = some (.file content) := by
  rw [step] at h
  split at h
  · cases h
  · split at h
    · cases h
    · split at h
      · cases h
        assumption
      · cases h

theorem get?_of_follow {above : List String} {content : String}
    (h : tree.follow path above = .found (.file content)) : tree.nodes.get? path = some (.file content) := by
  induction above with
  | nil => exact get?_of_step h
  | cons dir rest ih =>
      rw [follow] at h
      cases hstep : tree.step dir with
      | found node =>
          rw [hstep] at h
          cases node with
          | directory => exact ih h
          | file other => cases h
      | missing | refused fault =>
          rw [hstep] at h
          cases h

/-- This holds of every tree, regular or not. -/
theorem mem_files_of_file? {content : String} (h : tree.file? path = some content) : path ∈ tree.files := by
  rw [file?] at h
  split at h
  case h_1 found hlookup =>
    rw [lookup] at hlookup
    split at hlookup
    · cases hlookup
    · split at hlookup
      case h_1 => exact mem_files.2 ⟨found, get?_of_follow hlookup⟩
      all_goals cases hlookup
  case h_2 => cases h

theorem files_ascending (tree : FileTree) : tree.files.Pairwise (· < ·) :=
  List.pairwise_map.2 (tree.nodes.ascending.filter _)

theorem Regular.drop (h : tree.Regular)
    (hbelow : ∀ {q node}, tree.nodes.get? q = some node → path ∉ Key.ancestors q) :
    (tree.drop path).Regular where
  unlimited := h.unlimited
  rooted hget := h.rooted (get?_of_drop hget).2
  above hget dir hdir := by
    have hkept := (get?_of_drop hget).2
    have hne : path ≠ dir := fun heq => hbelow hkept (heq ▸ hdir)
    rw [get?_drop, if_neg hne]
    exact h.above hkept dir hdir
  unbroken hget := h.unbroken (get?_of_drop hget).2

theorem Regular.not_mem_ancestors (h : tree.Regular) (hpath : tree.nodes.get? path ≠ some .directory)
    {q : String} (hget : tree.nodes.get? q = some node) : path ∉ Key.ancestors q :=
  fun hmem => hpath (h.above hget path hmem)

end VersionControl.FileTree
