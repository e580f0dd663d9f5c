import VersionControl.Key
import VersionControl.Proofs.Text

/-!
# Plain keys

A plain key is one that the disk holds as it is spelled: each of its segments is a file name, and no NUL cuts
it. The directories above a plain key are plain, and its staging file lies beside it under a name that no
plain key has.
-/

namespace VersionControl.Key

/-- A path all of whose segments are names that a directory can hold. -/
def IsNamed (path : String) : Prop := ∀ name ∈ segments path, isSpecialName name = false

/-- A storable key that does not end for the operating system before its end. -/
structure IsPlain (key : String) : Prop where
  storable : isStorable key = true
  unbroken : '\x00' ∉ key.toList

variable {key dir : String}

/-! ## Directories above a key -/

theorem mem_ancestors : dir ∈ ancestors key ↔ ∃ rest, key = dir ++ "/" ++ rest := by
  simp only [ancestors, Text.beforeEach, List.mem_map]
  constructor
  · rintro ⟨chars, hchars, rfl⟩
    obtain ⟨rest, hrest⟩ := Text.mem_beforeEachChars.1 hchars
    exact ⟨String.ofList rest, String.toList_injective (by simp [hrest])⟩
  · rintro ⟨rest, rfl⟩
    exact ⟨dir.toList, Text.mem_beforeEachChars.2 ⟨rest.toList, by simp⟩, by simp⟩

theorem ancestors_pairwise (key : String) :
    (ancestors key).Pairwise (fun dir inner => dir ∈ ancestors inner) := by
  rw [ancestors, Text.beforeEach, List.pairwise_map]
  refine (Text.beforeEachChars_pairwise '/' key.toList).imp fun {dir inner} h => ?_
  exact List.mem_map.2 ⟨dir, by simpa using h, rfl⟩

theorem length_lt_of_mem_ancestors (h : dir ∈ ancestors key) : dir.length < key.length := by
  obtain ⟨rest, rfl⟩ := mem_ancestors.1 h
  simp only [String.length_append]
  have : "/".length = 1 := by decide
  omega

theorem self_not_mem_ancestors (key : String) : key ∉ ancestors key := by
  intro h
  exact Nat.lt_irrefl _ (length_lt_of_mem_ancestors h)

theorem mem_ancestors_trans {inner : String} (h : dir ∈ ancestors inner) (hinner : inner ∈ ancestors key) :
    dir ∈ ancestors key := by
  obtain ⟨rest, rfl⟩ := mem_ancestors.1 h
  obtain ⟨rest', rfl⟩ := mem_ancestors.1 hinner
  exact mem_ancestors.2 ⟨rest ++ "/" ++ rest', by simp only [String.append_assoc]⟩

theorem segments_append_slash (dir rest : String) :
    segments (dir ++ "/" ++ rest) = segments dir ++ segments rest := by
  simp [segments, Text.split, Text.splitChars_append_sep]

theorem segments_subset_of_mem_ancestors (h : dir ∈ ancestors key) : segments dir ⊆ segments key := by
  obtain ⟨rest, rfl⟩ := mem_ancestors.1 h
  rw [segments_append_slash]
  exact List.subset_append_left _ _

/-- A path is a name in the root, or a name in a directory that has the other directories above it. -/
theorem ancestors_eq_nil_or (key : String) :
    ancestors key = [] ∨ ∃ dir, ancestors key = ancestors dir ++ [dir] := by
  rcases Text.beforeEachChars_eq_nil_or '/' key.toList with hnil | ⟨dir, hdir⟩
  · exact .inl (by simp [ancestors, Text.beforeEach, hnil])
  · exact .inr ⟨String.ofList dir, by simp [ancestors, Text.beforeEach, hdir]⟩

/-! ## Keys in keys -/

/-- Whether the segments of a key are the first ones of another key, which has more. -/
def IsAbove (dir key : String) : Prop := segments dir <+: segments key ∧ dir ≠ key

theorem isAbove_iff : IsAbove dir key ↔ dir ∈ ancestors key := by
  constructor
  · rintro ⟨hstart, hne⟩
    have hchars : Text.splitChars '/' dir.toList <+: Text.splitChars '/' key.toList :=
      (List.prefix_map_iff_of_injective fun _ _ => String.ofList_injective).1 hstart
    rcases Text.eq_or_append_sep_of_splitChars_prefix hchars with heq | ⟨rest, hrest⟩
    · exact absurd (String.toList_injective heq) hne
    · exact mem_ancestors.2 ⟨String.ofList rest, String.toList_injective (by simp [hrest])⟩
  · intro h
    refine ⟨?_, fun heq => self_not_mem_ancestors key (heq ▸ h)⟩
    obtain ⟨rest, rfl⟩ := mem_ancestors.1 h
    rw [segments_append_slash]
    exact List.prefix_append _ _

theorem IsNamed.of_mem_ancestors (h : IsNamed key) (hdir : dir ∈ ancestors key) : IsNamed dir :=
  fun name hname => h name (segments_subset_of_mem_ancestors hdir hname)

theorem segments_ne_nil (key : String) : segments key ≠ [] := by
  simp [segments, Text.split, Text.splitChars_ne_nil]

theorem baseName_mem_segments (key : String) : baseName key ∈ segments key := by
  rw [baseName, List.getLast?_eq_some_getLast (segments_ne_nil key)]
  exact List.getLast_mem _

theorem IsNamed.baseName (h : IsNamed key) : isSpecialName (Key.baseName key) = false :=
  h _ (baseName_mem_segments key)

theorem IsNamed.withoutSlash (h : IsNamed key) : Key.withoutSlash key = key := by
  rw [Key.withoutSlash, if_neg]
  intro hslash
  obtain ⟨before, hbefore⟩ := List.getLast?_eq_some_iff.1 (of_decide_eq_true hslash)
  have hkey : key = String.ofList before ++ "/" ++ "" := String.toList_injective (by simp [hbefore])
  have hempty : "" ∈ segments key := by
    rw [hkey, segments_append_slash]
    exact List.mem_append_right _ (by decide)
  exact absurd (h "" hempty) (by decide)

/-! ## Plain keys -/

theorem isStorable_iff :
    isStorable key = true ↔ '\\' ∉ key.toList ∧ ∀ name ∈ segments key, isPlainSegment name = true := by
  simp [isStorable]

theorem IsPlain.segment (h : IsPlain key) {name : String} (hname : name ∈ segments key) :
    isSpecialName name = false ∧ isStagingName name = false := by
  have := (isStorable_iff.1 h.storable).2 name hname
  simpa [isPlainSegment] using this

theorem IsPlain.named (h : IsPlain key) : IsNamed key := fun _ hname => (h.segment hname).1

theorem IsPlain.ne_empty (h : IsPlain key) : key ≠ "" := by
  rintro rfl
  exact absurd h.storable (by decide)

theorem IsPlain.of_mem_ancestors (h : IsPlain key) (hdir : dir ∈ ancestors key) : IsPlain dir where
  storable := by
    obtain ⟨hslash, hsegments⟩ := isStorable_iff.1 h.storable
    refine isStorable_iff.2 ⟨fun hmem => hslash ?_, fun name hname =>
      hsegments name (segments_subset_of_mem_ancestors hdir hname)⟩
    obtain ⟨rest, rfl⟩ := mem_ancestors.1 hdir
    simp [hmem]
  unbroken hmem := h.unbroken (by
    obtain ⟨rest, rfl⟩ := mem_ancestors.1 hdir
    simp [hmem])

/-! ## Staging files -/

def stagingSuffix (serial : Nat) : String := "." ++ toString serial ++ ".tmp~"

theorem stagingName_eq (key : String) (serial : Nat) :
    stagingName key serial = key ++ stagingSuffix serial := by
  simp only [stagingName, stagingSuffix, String.append_assoc]

theorem mem_stagingSuffix {c : Char} {serial : Nat} (h : c ∈ (stagingSuffix serial).toList) :
    c.isDigit ∨ c ∈ ".tmp~".toList := by
  simp only [stagingSuffix, String.toList_append, List.mem_append] at h
  rcases h with (h | h) | h
  · exact .inr (by simp_all)
  · exact .inl (Nat.isDigit_of_mem_toDigits (by decide) (by decide) (Nat.toList_repr ▸ h))
  · exact .inr h

theorem slash_not_mem_stagingSuffix (serial : Nat) : '/' ∉ (stagingSuffix serial).toList := fun h =>
  (mem_stagingSuffix h).elim (by decide) (by decide)

theorem nul_not_mem_stagingSuffix (serial : Nat) : '\x00' ∉ (stagingSuffix serial).toList := fun h =>
  (mem_stagingSuffix h).elim (by decide) (by decide)

theorem ancestors_stagingName (key : String) (serial : Nat) :
    ancestors (stagingName key serial) = ancestors key := by
  rw [stagingName_eq, ancestors, Text.beforeEach, String.toList_append,
    Text.beforeEachChars_append_of_not_mem _ (slash_not_mem_stagingSuffix serial)]
  rfl

/-- The staging name has the segments of its key but for a longer last one. -/
theorem segments_stagingName (key : String) (serial : Nat) : ∃ above last,
    segments key = above ++ [last] ∧
      segments (stagingName key serial) = above ++ [last ++ stagingSuffix serial] := by
  obtain ⟨pieces, last, hkey, hstaging⟩ :=
    Text.splitChars_append_of_not_mem key.toList (slash_not_mem_stagingSuffix serial)
  refine ⟨pieces.map String.ofList, String.ofList last, by simp [segments, Text.split, hkey], ?_⟩
  rw [stagingName_eq, segments, Text.split, String.toList_append, hstaging]
  simp [String.ofList_append]

theorem baseName_stagingName (key : String) (serial : Nat) :
    isStagingName (baseName (stagingName key serial)) = true := by
  obtain ⟨above, last, -, hstaging⟩ := segments_stagingName key serial
  have hend : ".tmp~".toList = ".tmp".toList ++ ['~'] := by decide
  have hlast : (last ++ stagingSuffix serial).toList.getLast? = some '~' := by
    rw [stagingSuffix, String.toList_append, String.toList_append, hend, ← List.append_assoc,
      ← List.append_assoc, List.getLast?_concat]
  rw [baseName, hstaging, List.getLast?_concat, Option.getD_some, isStagingName, Text.endsWithChar, hlast]
  rfl

theorem IsPlain.ne_stagingName (h : IsPlain key) (other : String) (serial : Nat) :
    key ≠ stagingName other serial := by
  intro heq
  have hplain := (h.segment (baseName_mem_segments key)).2
  rw [heq, baseName_stagingName] at hplain
  exact Bool.noConfusion hplain

theorem IsPlain.unbroken_stagingName (h : IsPlain key) (serial : Nat) :
    '\x00' ∉ (stagingName key serial).toList := by
  rw [stagingName_eq, String.toList_append, List.mem_append]
  exact fun hmem => hmem.elim h.unbroken (nul_not_mem_stagingSuffix serial)

theorem IsPlain.named_stagingName (h : IsPlain key) (serial : Nat) : IsNamed (stagingName key serial) := by
  obtain ⟨above, last, hkey, hstaging⟩ := segments_stagingName key serial
  intro name hname
  rw [hstaging] at hname
  rcases List.mem_append.1 hname with hname | hname
  · exact h.named name (hkey ▸ List.mem_append_left _ hname)
  · have hlong (short : String) (hshort : short.length ≤ 2) : last ++ stagingSuffix serial ≠ short := by
      rintro rfl
      have hend : ".tmp~".length = 5 := by decide
      simp only [stagingSuffix, String.length_append, hend] at hshort
      omega
    rw [List.mem_singleton.1 hname]
    simp only [isSpecialName, Bool.or_eq_false_iff, decide_eq_false_iff_not]
    exact ⟨⟨hlong "" (by decide), hlong "." (by decide)⟩, hlong ".." (by decide)⟩

end VersionControl.Key
