import VersionControl.Proofs.Bytes
import VersionControl.Proofs.Store.Memory

/-!
# Listings in memory

A listing scans the sorted keys from the first one that is not below its start, up to the first one that does not start
with it. No key with that start escapes the scan, since they stand together in the order of the bytes.
-/

namespace VersionControl.MemoryStore

open Text (IsCode IsRaw rawBytes)

variable {encode : Char → List UInt8} {chars : Char → Prop} {store : MemoryStore} {start : String}

/-- The stored keys with a given start, each once and in strictly ascending order of the bytes that spell them. -/
structure IsListing (spell : String → List UInt8) (store : MemoryStore) (start : String) (listed : List String) :
    Prop where
  ascending : listed.Pairwise fun a b => spell a < spell b
  nodup : listed.Nodup
  complete : ∀ key, key ∈ listed ↔ ObjectStore.has store key = true ∧ spell start <+: spell key

theorem keys_ascending (store : MemoryStore) (start : String) : (store.keys start).Pairwise (· < ·) := by
  rw [keys_eq_filter]
  exact store.objects.keys_ascending.filter _

theorem mem_keys_iff {key : String} :
    key ∈ store.keys start ↔ ObjectStore.has store key = true ∧ start.toList <+: key.toList := by
  rw [mem_keys, has_iff, Text.startsWith, List.isPrefixOf_iff_prefix]

theorem isListing_keys (hcode : IsCode encode chars)
    (hkeys : ∀ key, ObjectStore.has store key = true → ∀ c ∈ key.toList, chars c)
    (hstart : ∀ c ∈ start.toList, chars c) :
    IsListing (fun text => text.toList.flatMap encode) store start (store.keys start) where
  ascending := by
    have hchars {key : String} (hkey : key ∈ store.keys start) : ∀ c ∈ key.toList, chars c :=
      hkeys key (mem_keys_iff.1 hkey).1
    exact (keys_ascending store start).imp_of_mem fun ha hb => hcode.flatMap_lt (hchars ha) (hchars hb)
  nodup := (keys_ascending store start).imp String.ne_of_lt
  complete key := by
    rw [mem_keys_iff]
    exact and_congr_right fun hhas => (hcode.flatMap_prefix_iff hstart (hkeys key hhas)).symm

/-- Whatever a store in memory holds, a listing is not refused and tells of exactly the keys with its start. The keys
may be spelled in UTF-8 or be any strings of bytes. -/
theorem keys_complete (store : MemoryStore) (start : String) : ∃ listed,
    ObjectStore.keys store start = .ok listed ∧ IsListing Text.bytes store start listed ∧
      ((∀ key, ObjectStore.has store key = true → IsRaw key) → IsRaw start →
        IsListing rawBytes store start listed) := by
  have hbytes : Text.bytes = fun text => text.toList.flatMap String.utf8EncodeChar := funext Text.bytes_eq
  have hraw : rawBytes = fun text => text.toList.flatMap fun c => [c.toUInt8] := funext Text.rawBytes_eq
  refine ⟨store.keys start, rfl, ?_, fun hkeys hstart => ?_⟩
  · rw [hbytes]
    exact isListing_keys Text.isCode_utf8EncodeChar (by simp) (by simp)
  · rw [hraw]
    exact isListing_keys Text.isCode_toUInt8 hkeys hstart

/-- The start is also a key, and it ends with the first byte of a character of two bytes. -/
theorem keys_complete_of_broken_character :
    let store : MemoryStore :=
      ⟨.ofList [("r", ""), ("r/\u00c3", ""), ("r/\u00c3\u00a9", ""), ("r/\u00c4", ""), ("r0", "")]⟩
    (∀ key, ObjectStore.has store key = true → IsRaw key) ∧ IsRaw "r/\u00c3" ∧
      IsListing rawBytes store "r/\u00c3" ["r/\u00c3", "r/\u00c3\u00a9"] := by
  intro store
  have hraw : store.objects.keys.all (·.toList.all (·.toNat < 256)) = true := by decide +kernel
  have hkeys (key : String) (hhas : ObjectStore.has store key = true) : IsRaw key := by
    have hkey := List.all_eq_true.1 hraw key (Dict.mem_keys.2 (has_iff.1 hhas))
    simpa [IsRaw] using hkey
  have hstart : IsRaw "r/\u00c3" := by simp [IsRaw]
  obtain ⟨listed, hlisted, -, hbytes⟩ := keys_complete store "r/\u00c3"
  have heq : ObjectStore.keys store "r/\u00c3" = .ok ["r/\u00c3", "r/\u00c3\u00a9"] := by decide +kernel
  cases heq.symm.trans hlisted
  exact ⟨hkeys, hstart, hbytes hkeys hstart⟩

end VersionControl.MemoryStore
