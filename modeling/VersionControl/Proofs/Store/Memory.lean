import VersionControl.Proofs.Dict
import VersionControl.Proofs.Store.Laws
import VersionControl.Proofs.Text
import VersionControl.Store.Memory

/-!
# The laws in memory

Every store in memory is sound, and a call on it does to a key what the dictionary does.
-/

namespace VersionControl.MemoryStore

open ObjectStore

variable {store : MemoryStore} {key data other : String}

theorem has_iff : ObjectStore.has store key = true ↔ ∃ content, store.objects.get? key = some content :=
  Dict.contains_iff

theorem has_congr {after : MemoryStore} (h : after.objects.get? key = store.objects.get? key) :
    ObjectStore.has after key = ObjectStore.has store key :=
  congrArg Option.isSome h

theorem read_congr {after : MemoryStore} (h : after.objects.get? key = store.objects.get? key) :
    ObjectStore.read after key = ObjectStore.read store key := by
  simp only [ObjectStore.read, MemoryStore.read, h]

theorem read_of_get? (h : store.objects.get? key = some data) : ObjectStore.read store key = .ok data := by
  simp only [ObjectStore.read, MemoryStore.read, h]

theorem write_eq (store : MemoryStore) (h : key ≠ "") (data : String) :
    write key data store = (.ok (), ⟨store.objects.insert key data⟩) :=
  if_neg h

theorem remove_eq (h : ObjectStore.has store key = true) :
    remove key store = (.ok (), ⟨store.objects.erase key⟩) :=
  if_pos h

theorem remove_of_not_has (h : ¬ObjectStore.has store key = true) :
    remove key store = (.error (.storage (.keyNotFound key)), store) :=
  if_neg h

theorem changesOnly_of_get? {after : MemoryStore}
    (h : ∀ other, other ≠ key → after.objects.get? other = store.objects.get? other) :
    ChangesOnly key store after :=
  ⟨fun _ hne => has_congr (h _ hne), fun _ hne _ => read_congr (h _ hne)⟩

/-! ## The scan of the keys -/

/-- Among sorted texts those with a given start stand together, right behind the texts below it. -/
theorem scan_eq_filter {texts : List String} (hascending : texts.Pairwise (· < ·)) (start : String) :
    (texts.dropWhile (· < start)).takeWhile (Text.startsWith start) =
      texts.filter (Text.startsWith start) := by
  induction texts with
  | nil => rfl
  | cons text rest ih =>
      obtain ⟨hfirst, hrest⟩ := List.pairwise_cons.1 hascending
      by_cases hlt : text < start
      · have hnot : Text.startsWith start text = false := Text.not_startsWith_of_lt hlt
        rw [List.dropWhile_cons_of_pos (by simpa using hlt), ih hrest,
          List.filter_cons_of_neg (by simp [hnot])]
      · have hdrop : rest.dropWhile (· < start) = rest := List.dropWhile_eq_self_iff.2 fun hpos => by
          have hnext := hfirst rest[0] (List.getElem_mem hpos)
          simpa using fun hbelow : rest[0] < start => hlt (String.lt_trans hnext hbelow)
        rw [List.dropWhile_cons_of_neg (by simpa using hlt)]
        cases hstart : Text.startsWith start text with
        | true =>
            rw [List.takeWhile_cons_of_pos hstart, List.filter_cons_of_pos hstart, ← ih hrest, hdrop]
        | false =>
            have hnone : ∀ other ∈ rest, Text.startsWith start other = false := fun other hother =>
              Bool.eq_false_iff.2 fun hstarts => by
                simp [Text.startsWith_of_between hlt (hfirst other hother) hstarts] at hstart
            rw [List.takeWhile_cons_of_neg (by simp [hstart]), List.filter_cons_of_neg (by simp [hstart])]
            exact (List.filter_eq_nil_iff.2 fun other hother => by simp [hnone other hother]).symm

theorem keys_eq_filter (store : MemoryStore) (start : String) :
    store.keys start = store.objects.keys.filter (Text.startsWith start) :=
  scan_eq_filter store.objects.keys_ascending start

theorem mem_keys {start : String} : key ∈ store.keys start ↔
    (∃ content, store.objects.get? key = some content) ∧ Text.startsWith start key = true := by
  rw [keys_eq_filter, List.mem_filter, Dict.mem_keys]

/-! ## Laws -/

instance : LawfulStore MemoryStore where
  Sound _ := True
  Stages _ _ := True
  write_cases {store key} _ hkey data := by
    refine .inr ⟨_, store.write_eq hkey.ne_empty data, trivial, ?_, ?_, ?_⟩
    · exact changesOnly_of_get? fun other hne => by rw [Dict.get?_insert, if_neg (Ne.symm hne)]
    · exact has_iff.2 ⟨data, by simp⟩
    · simp [ObjectStore.read, MemoryStore.read]
  remove_of_has {store key} _ _ hstored := by
    refine ⟨_, remove_eq hstored, trivial, ?_, ?_⟩
    · exact changesOnly_of_get? fun other hne => by rw [Dict.get?_erase, if_neg (Ne.symm hne)]
    · simp [ObjectStore.has, Dict.contains]
  stages_write _ _ _ _ := trivial
  stages_remove _ _ _ _ := trivial

end VersionControl.MemoryStore
