import VersionControl.Proofs.Ref
import VersionControl.Proofs.Store.Memory

/-!
# Refs in memory

In memory a ref is what is stored under its key, whatever is stored elsewhere, and HEAD looks at its own key and at that
of the branch it names.
-/

namespace VersionControl.Ref

variable {store after : MemoryStore} {name : String}

/-! ## Reading -/

theorem readPointer_eq_ok_iff {key pointer : String} : readPointer store key name = .ok pointer ↔
    (store.objects.get? key).map trimPointer = some pointer ∧ pointer ≠ "" := by
  constructor
  · intro h
    obtain ⟨hhas, content, hread, rfl, hblank⟩ := readPointer_eq_ok h
    obtain ⟨stored, hget⟩ := MemoryStore.has_iff.1 hhas
    cases (MemoryStore.read_of_get? hget).symm.trans hread
    exact ⟨by rw [hget]; rfl, hblank⟩
  · rintro ⟨hpointer, hblank⟩
    obtain ⟨content, hget, rfl⟩ := Option.map_eq_some_iff.1 hpointer
    exact readPointer_of_read (MemoryStore.has_iff.2 ⟨content, hget⟩) (MemoryStore.read_of_get? hget) hblank

theorem readPointer_of_get?_eq {key : String} (name : String)
    (hget : after.objects.get? key = store.objects.get? key) :
    readPointer after key name = readPointer store key name :=
  readPointer_congr (MemoryStore.has_congr hget) fun _ => MemoryStore.read_congr hget

theorem resolve_of_get?_eq (hname : name ≠ Head.name)
    (hget : after.objects.get? (key name) = store.objects.get? (key name)) :
    resolve after name = resolve store name := by
  rw [resolve_of_ne_head hname, resolve_of_ne_head hname]
  exact readPointer_of_get?_eq name hget

theorem head_of_get?_eq (hget : after.objects.get? Head.name = store.objects.get? Head.name) :
    head after = head store := by
  rw [head, head, readPointer_of_get?_eq Head.name hget]

theorem resolve_head_of_get?_eq (hhead : after.objects.get? Head.name = store.objects.get? Head.name)
    (hbranch : ∀ branch, head store = .ok (.symbolic branch) →
      after.objects.get? (key branch) = store.objects.get? (key branch)) :
    resolve after Head.name = resolve store Head.name := by
  rw [resolve, resolve, if_pos rfl, if_pos rfl, head_of_get?_eq hhead]
  cases hstore : head store with
  | error error => rfl
  | ok current =>
      cases current with
      | detached hash => rfl
      | symbolic branch => exact readPointer_of_get?_eq branch (hbranch branch hstore)

/-! ## Changing -/

theorem update_eq (hname : name ≠ Head.name) (hash : String) (store : MemoryStore) :
    update name hash store = (.ok (), ⟨store.objects.insert (key name) (hash ++ "\n")⟩) := by
  rw [update_of_ne_head hname]
  exact store.write_eq (key_ne_empty name) (hash ++ "\n")

theorem delete_eq (hhas : ObjectStore.has store (key name) = true) :
    delete name store = (.ok (), ⟨store.objects.erase (key name)⟩) :=
  (delete_of_has hhas).trans (MemoryStore.remove_eq hhas)

end VersionControl.Ref
