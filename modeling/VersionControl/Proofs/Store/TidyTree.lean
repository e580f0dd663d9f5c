import Mathlib.Data.Finset.Max
import VersionControl.Proofs.Store.TreeChanges

/-!
# Tidy trees

A tidy tree holds objects and the directories above them, and nothing else: no staging file and no empty
directory. Where a file can be put then depends on the objects alone. Putting one and removing one with the
directories that it leaves empty keep the tree tidy.
-/

namespace VersionControl.FileTree

/-- Whether there is an entry below a path. -/
def Occupied (tree : FileTree) (dir : String) : Prop :=
  ∃ path node, tree.nodes.get? path = some node ∧ dir ∈ Key.ancestors path

structure Tidy (tree : FileTree) : Prop where
  regular : tree.Regular
  root : tree.root = .directory
  plain : ∀ {path content}, tree.nodes.get? path = some (.file content) → Key.IsPlain path
  occupied : ∀ {dir}, tree.nodes.get? dir = some .directory → tree.Occupied dir

variable {tree : FileTree} {path dir key content : String} {node : FileNode}

theorem Tidy.of_empty (h : tree = { limits := .unlimited }) : tree.Tidy where
  regular := .of_empty (by rw [h]) (by rw [h])
  root := by rw [h]
  plain hget := by simp [h] at hget
  occupied hget := by simp [h] at hget

/-! ## Objects below directories -/

/-- The farthest entry below a directory is a file. -/
theorem Tidy.exists_file_below (h : tree.Tidy) (hdir : tree.nodes.get? dir = some .directory) :
    ∃ key content, tree.nodes.get? key = some (.file content) ∧ dir ∈ Key.ancestors key := by
  let below := (tree.nodes.keys.filter (dir ∈ Key.ancestors ·)).toFinset
  have hbelow (path : String) :
      path ∈ below ↔ (∃ node, tree.nodes.get? path = some node) ∧ dir ∈ Key.ancestors path := by
    simp [below, Dict.mem_keys]
  obtain ⟨path, node, hget, hmem⟩ := h.occupied hdir
  obtain ⟨farthest, hfarthest, hmax⟩ :=
    below.exists_max_image String.length ⟨path, (hbelow path).2 ⟨⟨node, hget⟩, hmem⟩⟩
  obtain ⟨⟨node, hget⟩, hmem⟩ := (hbelow farthest).1 hfarthest
  cases node with
  | file content => exact ⟨farthest, content, hget, hmem⟩
  | directory =>
      obtain ⟨inner, node, hinner, habove⟩ := h.occupied hget
      have hle := hmax inner ((hbelow inner).2 ⟨⟨node, hinner⟩, Key.mem_ancestors_trans hmem habove⟩)
      have hlt := Key.length_lt_of_mem_ancestors habove
      omega

theorem Tidy.isPlain (h : tree.Tidy) (hget : tree.nodes.get? path = some node) : Key.IsPlain path := by
  cases node with
  | file content => exact h.plain hget
  | directory =>
      obtain ⟨key, content, hfile, hmem⟩ := h.exists_file_below hget
      exact (h.plain hfile).of_mem_ancestors hmem

theorem Tidy.get?_stagingName (h : tree.Tidy) (key : String) (serial : Nat) :
    tree.nodes.get? (Key.stagingName key serial) = none := by
  cases hget : tree.nodes.get? (Key.stagingName key serial) with
  | none => rfl
  | some node => exact absurd rfl ((h.isPlain hget).ne_stagingName key serial)

theorem Tidy.drop_stagingName (h : tree.Tidy) (key : String) (serial : Nat) :
    tree.drop (Key.stagingName key serial) = tree := by
  refine eq_of_get? rfl rfl fun path => ?_
  rw [get?_drop]
  split
  case isTrue heq => rw [← heq, h.get?_stagingName]
  case isFalse => rfl

/-- A file can be put wherever no object is above or below. -/
theorem Tidy.accepts_iff (h : tree.Tidy) : tree.Accepts key ↔
    ∀ other content, tree.nodes.get? other = some (.file content) →
      other ∉ Key.ancestors key ∧ key ∉ Key.ancestors other := by
  constructor
  · rintro ⟨hopen, hvacant⟩ other content hfile
    exact ⟨fun hmem => hopen.above other hmem content hfile, h.regular.not_mem_ancestors hvacant hfile⟩
  · intro hclear
    refine ⟨⟨.inl h.root, fun dir hmem content hfile => (hclear dir content hfile).1 hmem⟩, fun hdir => ?_⟩
    obtain ⟨other, content, hfile, hmem⟩ := h.exists_file_below hdir
    exact (hclear other content hfile).2 hmem

/-- Objects do not stand below objects. -/
theorem Tidy.not_mem_ancestors (h : tree.Tidy) (hfile : tree.nodes.get? key = some (.file content))
    {other : String} (hget : tree.nodes.get? other = some node) : key ∉ Key.ancestors other :=
  h.regular.not_mem_ancestors (by simp [hfile]) hget

/-! ## Putting a file -/

theorem Tidy.put (h : tree.Tidy) (hkey : Key.IsPlain key) {serial : Nat} {after : FileTree}
    (hregular : after.Regular)
    (hnodes : ∀ path, after.nodes.get? path =
      if key = path then some (.file content)
      else if Key.stagingName key serial = path then none
      else if path ∈ Key.ancestors key then some .directory
      else tree.nodes.get? path) : after.Tidy := by
  have hentry {path : String} {node : FileNode} (hget : after.nodes.get? path = some node) :
      key = path ∨ path ∈ Key.ancestors key ∧ node = .directory ∨ tree.nodes.get? path = some node := by
    rw [hnodes] at hget
    split at hget
    case isTrue heq => exact .inl heq
    case isFalse =>
      split at hget
      case isTrue => cases hget
      case isFalse =>
        split at hget
        case isTrue hmem => exact .inr (.inl ⟨hmem, (Option.some.inj hget).symm⟩)
        case isFalse => exact .inr (.inr hget)
  have hkept {path : String} {node : FileNode} (hget : tree.nodes.get? path = some node) :
      ∃ node, after.nodes.get? path = some node := by
    have hstaging : Key.stagingName key serial ≠ path := fun heq => by
      simp [← heq, h.get?_stagingName] at hget
    rw [hnodes, if_neg hstaging]
    split
    · exact ⟨_, rfl⟩
    · split
      · exact ⟨_, rfl⟩
      · exact ⟨_, hget⟩
  have hput : after.nodes.get? key = some (.file content) := by rw [hnodes, if_pos rfl]
  refine ⟨hregular, hregular.rooted hput, fun {path content} hget => ?_, fun {dir} hget => ?_⟩
  · rcases hentry hget with rfl | ⟨-, hnode⟩ | hget
    · exact hkey
    · cases hnode
    · exact h.plain hget
  · rcases hentry hget with rfl | ⟨hmem, -⟩ | hget
    · simp [hput] at hget
    · exact ⟨key, _, hput, hmem⟩
    · obtain ⟨path, node, hpath, hmem⟩ := h.occupied hget
      obtain ⟨node, hpath⟩ := hkept hpath
      exact ⟨path, node, hpath, hmem⟩

/-! ## Removing a file -/

/-- Without one entry only the directory that it stood in can become empty. -/
theorem Regular.occupied_drop (h : tree.Regular) (hdir : tree.Occupied dir) :
    (Key.ancestors path).getLast? = some dir ∨ (tree.drop path).Occupied dir := by
  obtain ⟨below, node, hget, hmem⟩ := hdir
  by_cases heq : path = below
  · subst heq
    obtain ⟨parent, hparent⟩ : ∃ parent, (Key.ancestors path).getLast? = some parent :=
      ⟨_, List.getLast?_eq_some_getLast (List.ne_nil_of_mem hmem)⟩
    rcases mem_ancestors_of_getLast? hparent hmem with rfl | hmem
    · exact .inl hparent
    · have hparentMem := List.mem_of_getLast? hparent
      have hne : path ≠ parent := fun heq => Key.self_not_mem_ancestors path (heq ▸ hparentMem)
      exact .inr ⟨parent, .directory, by rw [get?_drop, if_neg hne, h.above hget parent hparentMem], hmem⟩
  · exact .inr ⟨below, node, by rw [get?_drop, if_neg heq, hget], hmem⟩

theorem occupied_of_hasChildren (hdir : dir ≠ "") (h : tree.hasChildren dir = true) : tree.Occupied dir := by
  obtain ⟨path, hpath, hbelow⟩ := List.any_eq_true.1 h
  obtain ⟨node, hget⟩ := Dict.mem_keys.1 hpath
  refine ⟨path, node, hget, Key.mem_ancestors.2 ?_⟩
  rw [isBelow_eq, decide_eq_false hdir, Bool.false_or, Text.startsWith_iff] at hbelow
  exact hbelow

theorem hasChildren_of_occupied (h : tree.Occupied dir) : tree.hasChildren dir = true := by
  obtain ⟨path, node, hget, hmem⟩ := h
  exact List.any_eq_true.2 ⟨path, Dict.mem_keys.2 ⟨node, hget⟩, isBelow_of_mem_ancestors hmem⟩

/-- Pruning upwards from a path leaves no directory empty if at most the one right above the path was. -/
theorem Regular.occupied_prune {tree : FileTree} {path dir : String} (h : tree.Regular)
    (hpath : Key.IsPlain path) (hoccupied : ∀ dir, tree.nodes.get? dir = some .directory →
      (Key.ancestors path).getLast? = some dir ∨ tree.Occupied dir)
    (hdir : (tree.prune (Key.ancestors path).reverse).nodes.get? dir = some .directory) :
    (tree.prune (Key.ancestors path).reverse).Occupied dir := by
  rcases Key.ancestors_eq_nil_or path with hnil | ⟨parent, hparent⟩
  · simp only [hnil, List.reverse_nil, FileTree.prune] at hdir ⊢
    exact (hoccupied dir hdir).resolve_left (by simp [hnil])
  · have hplain : Key.IsPlain parent := hpath.of_mem_ancestors (by simp [hparent])
    have hlength : (Key.ancestors parent).length < (Key.ancestors path).length := by simp [hparent]
    have hlast : (Key.ancestors path).getLast? = some parent := by simp [hparent]
    rw [hparent, List.reverse_concat, FileTree.prune] at hdir ⊢
    split at hdir
    case isTrue hempty =>
      rw [if_pos hempty]
      simp only [Bool.and_eq_true, Bool.not_eq_true'] at hempty
      have hdropped : (tree.drop parent).Regular :=
        h.drop fun hget => not_mem_ancestors_of_not_hasChildren hempty.2 hget
      refine hdropped.occupied_prune hplain (fun inner hinner => ?_) hdir
      obtain ⟨hne, hget⟩ := get?_of_drop hinner
      rcases hoccupied inner hget with heq | hkept
      · exact absurd (Option.some.inj (hlast.symm.trans heq)) hne
      · exact h.occupied_drop hkept
    case isFalse hkept =>
      rw [if_neg hkept]
      rcases hoccupied dir hdir with heq | hoccupied
      · obtain rfl : parent = dir := Option.some.inj (hlast.symm.trans heq)
        have hcontains : tree.nodes.contains parent = true := Dict.contains_iff.2 ⟨_, hdir⟩
        exact occupied_of_hasChildren hplain.ne_empty (by simpa [hcontains] using hkept)
      · exact hoccupied
termination_by (Key.ancestors path).length

/-- Removing a file with the directories that it leaves empty takes no other file away. -/
theorem Tidy.remove (h : tree.Tidy) (hfile : tree.nodes.get? key = some (.file content)) :
    ((tree.drop key).prune (Key.ancestors key).reverse).Tidy ∧ ∀ other content,
      ((tree.drop key).prune (Key.ancestors key).reverse).nodes.get? other = some (.file content) ↔
        key ≠ other ∧ tree.nodes.get? other = some (.file content) := by
  obtain ⟨hregular, hroot, hnodes⟩ := h.regular.prune_drop hfile
  have hfiles (other content : String) :
      ((tree.drop key).prune (Key.ancestors key).reverse).nodes.get? other = some (.file content) ↔
        key ≠ other ∧ tree.nodes.get? other = some (.file content) := by
    rcases hnodes other with heq | ⟨hdirectory, hnone⟩
    · rw [heq]
      refine ⟨get?_of_drop, fun ⟨hne, hget⟩ => ?_⟩
      rw [get?_drop, if_neg hne, hget]
    · obtain ⟨-, hget⟩ := get?_of_drop hdirectory
      simp [hnone, hget]
  refine ⟨⟨hregular, hroot.trans h.root, fun hget => h.plain ((hfiles _ _).1 hget).2, ?_⟩, hfiles⟩
  exact (h.regular.drop_file hfile).occupied_prune (h.plain hfile) fun dir hdir =>
    h.regular.occupied_drop (h.occupied (get?_of_drop hdir).2)

/-- Where there is no file there is nothing to remove, or a directory in use. -/
theorem Tidy.removeNode_of_not_file (h : tree.Tidy) (hkey : Key.IsNamed key)
    (hfile : ∀ content, tree.nodes.get? key ≠ some (.file content)) :
    tree.removeNode key = .missing ∨ ∃ fault, tree.removeNode key = .refused fault := by
  cases hlookup : tree.lookup key with
  | missing => exact .inl (by simp only [removeNode, hlookup])
  | refused fault => exact .inr ⟨fault, by simp only [removeNode, hlookup]⟩
  | found node =>
      have hget := (h.regular.lookup_eq_found_iff hkey).1 hlookup
      cases node with
      | file content => exact absurd hget (hfile content)
      | directory =>
          have hchildren := hasChildren_of_occupied (h.occupied hget)
          simp only [removeNode, hlookup, removeDirectory, hkey.withoutSlash, hchildren, if_true]
          split
          · exact .inr ⟨_, rfl⟩
          · split
            · exact .inr ⟨_, rfl⟩
            · exact .inr ⟨_, rfl⟩

end VersionControl.FileTree
