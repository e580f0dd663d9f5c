import VersionControl.Proofs.Branch.Foreign

/-!
# The key of a branch is its own

Branch names and storage keys have grammars of their own, and the first lies within the second: whatever may be a
branch can be stored anywhere. The key tells the name, and nothing but the branch is ever stored under it.
-/

namespace VersionControl.Branch

variable {name key : String}

/-- A key of the branch `name` that every backend takes as it is spelled, and under which there is nothing else. -/
structure IsOwnKey (name key : String) : Prop where
  storable : Key.isStorable key = true
  unbroken : '\x00' ∉ key.toList
  dropStart_eq : Text.dropStart Ref.directory key = name
  ne_head : key ≠ Head.name
  ne_record : key ≠ MergeRecord.key
  ne_commit : ∀ hash, key ≠ Commit.key hash
  ne_staging : ∀ other serial, key ≠ Key.stagingName other serial
  /-- No listing passes over it as a staging file. -/
  listed : Key.isStagingName (Key.baseName key) = false

theorem IsForeign.ne_key (h : IsForeign key) (hvalid : BranchName.isValid name = true) : Ref.key name ≠ key :=
  (h.2 name hvalid).symm

/-- Distinct names have distinct keys, valid or not, and the key of a valid name is all its own. -/
theorem isOwnKey_key :
    Function.Injective Ref.key ∧ ∀ name, BranchName.isValid name = true → IsOwnKey name (Ref.key name) := by
  refine ⟨fun name other => Ref.key_injective, fun name hvalid => ?_⟩
  have hplain : Key.IsPlain (Ref.key name) := Ref.isPlain_key hvalid
  exact {
    storable := hplain.storable
    unbroken := hplain.unbroken
    dropStart_eq := Ref.dropStart_key name
    ne_head := Ref.key_ne_head name
    ne_record := isForeign_recordKey.ne_key hvalid
    ne_commit := fun hash => (isForeign_commitKey hash).ne_key hvalid
    ne_staging := hplain.ne_stagingName
    listed := (hplain.segment (Key.baseName_mem_segments _)).2 }

/-- Dots and hyphens stand in a name in many places, at the end of a segment too. -/
theorem isOwnKey_key_of_release :
    let name := "release/v1.0-rc_2/.../-"
    BranchName.isValid name = true ∧ Ref.key name = "refs/heads/release/v1.0-rc_2/.../-" ∧
      IsOwnKey name (Ref.key name) := by
  intro name
  have hvalid : BranchName.isValid name = true := by decide +kernel
  exact ⟨hvalid, rfl, isOwnKey_key.2 name hvalid⟩

end VersionControl.Branch
