import VersionControl.Proofs.Store.FileTree

/-!
# Writing and pruning in a regular tree

A file can be put at a plain key unless a file stands above it or a directory at it. Putting it there makes
the directories above it and changes nothing else. Pruning takes away empty directories and nothing else.
-/

namespace VersionControl.FileTree

/-- Whether nothing above a path keeps directories from being there. -/
structure Open (tree : FileTree) (path : String) : Prop where
  root : tree.root = .directory ∨ tree.root = .missing
  above : ∀ dir ∈ Key.ancestors path, ∀ content, tree.nodes.get? dir ≠ some (.file content)

def Accepts (tree : FileTree) (path : String) : Prop :=
  tree.Open path ∧ tree.nodes.get? path ≠ some .directory

variable {tree : FileTree} {path key content : String}

theorem eq_of_get? {other : FileTree} (hroot : tree.root = other.root) (hlimits : tree.limits = other.limits)
    (hnodes : ∀ path, tree.nodes.get? path = other.nodes.get? path) : tree = other := by
  cases tree
  cases other
  simp only [mk.injEq]
  exact ⟨hroot, Dict.ext_get? hnodes, hlimits⟩

theorem Regular.open_of_mem (h : tree.Regular) {node : FileNode} (hget : tree.nodes.get? path = some node) :
    tree.Open path where
  root := .inl (h.rooted hget)
  above dir hdir content hfile := by simp [h.above hget dir hdir] at hfile

/-- What is closed to a path refuses to be followed along it. -/
theorem Regular.lookup_of_not_open (h : tree.Regular) (hpath : Key.IsNamed path) (hopen : ¬tree.Open path) :
    tree.lookup path = .refused .notDirectory := by
  by_cases hfile : ∃ dir ∈ Key.ancestors path, ∃ content, tree.nodes.get? dir = some (.file content)
  · exact h.lookup_of_file_above hpath hfile
  · have hroot : ¬(tree.root = .directory ∨ tree.root = .missing) := fun hroot =>
      hopen ⟨hroot, fun dir hdir content hget => hfile ⟨dir, hdir, content, hget⟩⟩
    simp only [lookup, h.unlimited, Limits.unlimited, Limits.allow, Option.all_none, Bool.not_true,
      Bool.false_eq_true, if_false]
    cases hkind : tree.root <;> simp_all

/-! ## Making directories -/

theorem get?_insertDirectories (dirs : List String) (nodes : Dict FileNode) (path : String) :
    (dirs.foldl (fun nodes dir => nodes.insert dir .directory) nodes).get? path =
      if path ∈ dirs then some .directory else nodes.get? path := by
  induction dirs generalizing nodes with
  | nil => simp
  | cons dir rest ih =>
      rw [List.foldl_cons, ih, Dict.get?_insert]
      by_cases hrest : path ∈ rest
      · simp [hrest]
      · by_cases hdir : dir = path
        · simp [hdir]
        · simp [hrest, hdir, Ne.symm hdir]

theorem addDirectories_eq (h : tree.limits = .unlimited) {dirs : List String}
    (hnamed : ∀ dir ∈ dirs, Key.IsNamed dir) :
    tree.addDirectories dirs = some { tree with
      root := .directory
      nodes := dirs.foldl (fun nodes dir => nodes.insert dir .directory) tree.nodes } := by
  have hentries : dirs.filter (fun dir => !Key.isSpecialName (Key.baseName dir)) = dirs :=
    List.filter_eq_self.2 fun dir hdir => by simp [(hnamed dir hdir).baseName]
  simp [addDirectories, mayMake, fits, h, Limits.unlimited, Limits.allow, hentries]

theorem get?_of_not_mem_missingPart (h : tree.limits = .unlimited) {dirs : List String}
    (hnamed : ∀ dir ∈ dirs, Key.IsNamed dir) (hmem : path ∈ dirs) (hnot : path ∉ tree.missingPart dirs) :
    tree.nodes.get? path = some .directory := by
  rw [missingPart] at hnot
  split at hnot
  case isFalse => exact absurd hmem hnot
  case isTrue =>
    rw [← List.takeWhile_append_dropWhile (p := fun dir => tree.step dir = .found .directory)
      (l := dirs)] at hmem
    rcases List.mem_append.1 hmem with htaken | hdropped
    · have hstep := List.all_eq_true.1 List.all_takeWhile path htaken
      rw [decide_eq_true_eq, step_eq h (hnamed path ((List.takeWhile_sublist _).mem htaken))] at hstep
      cases hget : tree.nodes.get? path with
      | none => simp [hget] at hstep
      | some node => simpa [hget] using hstep
    · exact absurd hdropped hnot

theorem addDirectories_missingPart (h : tree.limits = .unlimited) (hkey : Key.IsPlain key) :
    ∃ made, tree.addDirectories (tree.missingPart (Key.ancestors key)) = some made ∧
      made.root = .directory ∧ made.limits = tree.limits ∧
      ∀ path, made.nodes.get? path =
        if path ∈ Key.ancestors key then some .directory else tree.nodes.get? path := by
  have hnamed : ∀ dir ∈ Key.ancestors key, Key.IsNamed dir := fun _ => hkey.named.of_mem_ancestors
  have hpart : tree.missingPart (Key.ancestors key) ⊆ Key.ancestors key := by
    rw [missingPart]
    split
    · exact (List.dropWhile_sublist _).subset
    · exact List.Subset.refl _
  refine ⟨_, addDirectories_eq h fun dir hdir => hnamed dir (hpart hdir), rfl, rfl, fun path => ?_⟩
  rw [get?_insertDirectories]
  by_cases hmissing : path ∈ tree.missingPart (Key.ancestors key)
  · rw [if_pos hmissing, if_pos (hpart hmissing)]
  · rw [if_neg hmissing]
    split
    · rename_i hmem
      exact get?_of_not_mem_missingPart h hnamed hmem hmissing
    · rfl

theorem mem_ancestors_of_getLast? {last dir : String} (hlast : (Key.ancestors key).getLast? = some last)
    (hdir : dir ∈ Key.ancestors key) : dir = last ∨ dir ∈ Key.ancestors last := by
  obtain ⟨before, hbefore⟩ := List.getLast?_eq_some_iff.1 hlast
  have hnested := Key.ancestors_pairwise key
  rw [hbefore] at hdir hnested
  rcases List.mem_append.1 hdir with hdir | hdir
  · exact .inr ((List.pairwise_append.1 hnested).2.2 dir hdir last (by simp))
  · exact .inl (by simpa using hdir)

/-- Where no file is in the way all directories above a key get made. -/
theorem Regular.makeDirectories_of_open (h : tree.Regular) (hkey : Key.IsPlain key) (hopen : tree.Open key) :
    ∃ made, tree.makeDirectories (Key.ancestors key) = some made ∧ made.Regular ∧
      made.root = .directory ∧
      ∀ path, made.nodes.get? path =
        if path ∈ Key.ancestors key then some .directory else tree.nodes.get? path := by
  obtain ⟨added, hadded, haddedRoot, haddedLimits, haddedNodes⟩ := addDirectories_missingPart h.unlimited hkey
  have hregular : added.Regular := h.withDirectories hkey haddedRoot haddedLimits haddedNodes
  cases hlast : (Key.ancestors key).getLast? with
  | none =>
      have hnil : Key.ancestors key = [] := List.getLast?_eq_none_iff.1 hlast
      rcases hopen.root with hroot | hroot
      · exact ⟨tree, by simp [makeDirectories, hlast, hroot], h, hroot, by simp [hnil]⟩
      · refine ⟨added, ?_, hregular, haddedRoot, haddedNodes⟩
        have hpart : tree.missingPart (Key.ancestors key) = [] := by simp [missingPart, hnil]
        simp only [makeDirectories, hlast, hroot, ← hpart]
        exact hadded
  | some last =>
      have hmem : last ∈ Key.ancestors key := List.mem_of_getLast? hlast
      have hnamed : Key.IsNamed last := hkey.named.of_mem_ancestors hmem
      cases hlookup : tree.lookup last with
      | found node =>
          have hget := (h.lookup_eq_found_iff hnamed).1 hlookup
          have hdirectory : tree.nodes.get? last = some .directory := by
            cases node with
            | directory => exact hget
            | file content => exact absurd hget (hopen.above last hmem content)
          refine ⟨tree, by simp only [makeDirectories, hlast, hlookup], h, h.rooted hget, fun path => ?_⟩
          split
          · rename_i hpath
            rcases mem_ancestors_of_getLast? hlast hpath with rfl | hpath
            · exact hdirectory
            · exact h.above hget path hpath
          · rfl
      | missing =>
          refine ⟨added, ?_, hregular, haddedRoot, haddedNodes⟩
          simp only [makeDirectories, hlast, hlookup]
          exact hadded
      | refused fault =>
          exfalso
          rcases hopen.root with hroot | hroot
          · rw [h.lookup_of_clear hnamed hroot fun dir hdir =>
              hopen.above dir (Key.mem_ancestors_trans hdir hmem)] at hlookup
            cases hget : tree.nodes.get? last <;> simp [hget] at hlookup
          · simp [lookup, h.unlimited, Limits.unlimited, Limits.allow, hroot] at hlookup

/-- Where a file is in the way no directory gets made. -/
theorem Regular.makeDirectories_of_not_open (h : tree.Regular) (hkey : Key.IsPlain key)
    (hopen : ¬tree.Open key) :
    tree.makeDirectories (Key.ancestors key) = some tree ∨
      tree.makeDirectories (Key.ancestors key) = none := by
  simp only [makeDirectories]
  split
  case h_1 last hlast =>
    have hmem : last ∈ Key.ancestors key := List.mem_of_getLast? hlast
    have hnamed : Key.IsNamed last := hkey.named.of_mem_ancestors hmem
    split
    case h_1 => exact .inl rfl
    case h_3 => exact .inr rfl
    case h_2 hmissing =>
      -- a path that comes to nothing is open, and so is what lies right below its end
      exfalso
      have hlast_open : tree.Open last := Classical.byContradiction fun hclosed => by
        simp [h.lookup_of_not_open hnamed hclosed] at hmissing
      refine hopen ⟨hlast_open.root, fun dir hdir content hget => ?_⟩
      rcases mem_ancestors_of_getLast? hlast hdir with rfl | hdir
      · simp [(h.lookup_eq_found_iff hnamed).2 hget] at hmissing
      · exact hlast_open.above dir hdir content hget
  case h_2 hlast =>
    have hnil : Key.ancestors key = [] := List.getLast?_eq_none_iff.1 hlast
    cases hroot : tree.root with
    | directory | file | belowFile => simp
    | missing => exact absurd ⟨.inr hroot, by simp [hnil]⟩ hopen

/-! ## Files -/

theorem Regular.putFile_of_not_open (h : tree.Regular) (hpath : Key.IsNamed path) (hopen : ¬tree.Open path)
    (content : String) : tree.putFile path content = none := by
  simp only [putFile, h.lookup_of_not_open hpath hopen]

theorem Regular.putFile_of_directory (h : tree.Regular) (hpath : Key.IsNamed path)
    (hdirectory : tree.nodes.get? path = some .directory) (content : String) :
    tree.putFile path content = none := by
  simp only [putFile, (h.lookup_eq_found_iff hpath).2 hdirectory]

theorem Regular.putFile_eq (h : tree.Regular) (hpath : Key.IsNamed path) (hroot : tree.root = .directory)
    (habove : ∀ dir ∈ Key.ancestors path, tree.nodes.get? dir = some .directory)
    (hvacant : tree.nodes.get? path ≠ some .directory) (content : String) :
    tree.putFile path content = some { tree with nodes := tree.nodes.insert path (.file content) } := by
  have hclear : ∀ dir ∈ Key.ancestors path, ∀ content, tree.nodes.get? dir ≠ some (.file content) :=
    fun dir hdir content hget => by simp [habove dir hdir] at hget
  have hlookup := h.lookup_of_clear hpath hroot hclear
  cases hget : tree.nodes.get? path with
  | some node =>
      rw [hget] at hlookup
      cases node with
      | directory => exact absurd hget hvacant
      | file old => simp only [putFile, hlookup]
  | none =>
      rw [hget] at hlookup
      have hparent : tree.isDirectory (Key.parent path) = true := by
        rw [Key.parent]
        cases hlast : (Key.ancestors path).getLast? with
        | none =>
            rw [Option.getD_none, isDirectory, lookup_eq_follow h.unlimited hroot]
            rfl
        | some dir =>
            have hdir : dir ∈ Key.ancestors path := List.mem_of_getLast? hlast
            exact (h.isDirectory_iff (hpath.of_mem_ancestors hdir)).2 (habove dir hdir)
      simp only [putFile, hlookup, hparent, if_true]

theorem Regular.moveFile_eq {source : String} (h : tree.Regular) (hsource : Key.IsNamed source)
    (hpath : Key.IsNamed path) (hcontent : tree.nodes.get? source = some (.file content))
    (hvacant : tree.nodes.get? path ≠ some .directory) :
    tree.moveFile source path =
      some { tree with nodes := (tree.nodes.erase source).insert path (.file content) } := by
  have hdirectory : tree.isDirectory path = false := by
    rw [Bool.eq_false_iff]
    exact fun htrue => hvacant ((h.isDirectory_iff hpath).1 htrue)
  simp only [moveFile, (h.file?_eq_some_iff hsource).2 hcontent, hdirectory, Bool.false_eq_true, if_false]

theorem Regular.moveFile_of_directory {source : String} (h : tree.Regular) (hpath : Key.IsNamed path)
    (hdirectory : tree.nodes.get? path = some .directory) : tree.moveFile source path = none := by
  simp only [moveFile, (h.isDirectory_iff hpath).2 hdirectory, if_true]
  cases tree.file? source <;> rfl

theorem Regular.removeNode_eq (h : tree.Regular) (hpath : Key.IsNamed path)
    (hcontent : tree.nodes.get? path = some (.file content)) :
    tree.removeNode path = .removed (tree.drop path) := by
  simp only [removeNode, (h.lookup_eq_found_iff hpath).2 hcontent]

/-! ## Pruning -/

theorem isBelow_of_mem_ancestors {dir : String} (h : dir ∈ Key.ancestors path) : isBelow dir path = true := by
  obtain ⟨rest, rfl⟩ := Key.mem_ancestors.1 h
  simp [isBelow_eq, Text.startsWith_iff]

theorem not_mem_ancestors_of_not_hasChildren {dir : String} {node : FileNode}
    (h : tree.hasChildren dir = false) (hget : tree.nodes.get? path = some node) : dir ∉ Key.ancestors path := by
  intro hmem
  have hbelow := List.any_eq_false.1 h path (Dict.mem_keys.2 ⟨node, hget⟩)
  exact hbelow (isBelow_of_mem_ancestors hmem)

/-- Pruning takes away some of the directories it is given, and nothing else. -/
theorem Regular.prune (h : tree.Regular) {dirs : List String}
    (hdirs : ∀ dir ∈ dirs, ∀ content, tree.nodes.get? dir ≠ some (.file content)) :
    (tree.prune dirs).Regular ∧ (tree.prune dirs).root = tree.root ∧ ∀ path,
      (tree.prune dirs).nodes.get? path = tree.nodes.get? path ∨
        tree.nodes.get? path = some .directory ∧ (tree.prune dirs).nodes.get? path = none := by
  induction dirs generalizing tree with
  | nil => exact ⟨h, rfl, fun _ => .inl rfl⟩
  | cons dir rest ih =>
      rw [FileTree.prune]
      split
      case isFalse => exact ⟨h, rfl, fun _ => .inl rfl⟩
      case isTrue hempty =>
        simp only [Bool.and_eq_true, Bool.not_eq_true'] at hempty
        obtain ⟨hstored, hchildless⟩ := hempty
        obtain ⟨node, hnode⟩ := Dict.contains_iff.1 hstored
        have hdirectory : tree.nodes.get? dir = some .directory := by
          cases node with
          | directory => exact hnode
          | file content => exact absurd hnode (hdirs dir List.mem_cons_self content)
        have hdropped : (tree.drop dir).Regular :=
          h.drop fun hget => not_mem_ancestors_of_not_hasChildren hchildless hget
        obtain ⟨hregular, hroot, hnodes⟩ := ih hdropped fun d hd content hget =>
          hdirs d (List.mem_cons_of_mem _ hd) content (get?_of_drop hget).2
        refine ⟨hregular, hroot, fun path => ?_⟩
        specialize hnodes path
        rw [get?_drop] at hnodes
        split at hnodes
        case isTrue heq => exact .inr ⟨heq ▸ hdirectory, by simpa using hnodes⟩
        case isFalse => exact hnodes

theorem Regular.drop_file (h : tree.Regular) {content : String}
    (hfile : tree.nodes.get? path = some (.file content)) : (tree.drop path).Regular :=
  h.drop fun hget => h.not_mem_ancestors (by simp [hfile]) hget

/-- Of what is left without a file, pruning above it takes away directories and nothing else. -/
theorem Regular.prune_drop (h : tree.Regular) {content : String}
    (hfile : tree.nodes.get? path = some (.file content)) :
    ((tree.drop path).prune (Key.ancestors path).reverse).Regular ∧
      ((tree.drop path).prune (Key.ancestors path).reverse).root = tree.root ∧ ∀ other,
        ((tree.drop path).prune (Key.ancestors path).reverse).nodes.get? other =
            (tree.drop path).nodes.get? other ∨
          (tree.drop path).nodes.get? other = some .directory ∧
            ((tree.drop path).prune (Key.ancestors path).reverse).nodes.get? other = none := by
  refine (h.drop_file hfile).prune fun dir hdir content hget => ?_
  have hdirectory := h.above hfile dir (List.mem_reverse.1 hdir)
  simp [hdirectory] at hget

end VersionControl.FileTree
