import VersionControl.Proofs.Text
import VersionControl.Ref

/-!
# Pointers

Every ref has a key of its own, and none has that of HEAD. What a pointer is read as: one that is read is never blank
and has nothing left to trim.
-/

namespace VersionControl.Ref

/-! ## Keys -/

section Keys

variable {name other : String}

@[simp] theorem dropStart_key (name : String) : Text.dropStart directory (key name) = name :=
  Text.dropStart_append directory name

theorem key_injective (h : key name = key other) : name = other := by
  simpa using congrArg (Text.dropStart directory) h

@[simp] theorem key_inj : key name = key other ↔ name = other := ⟨key_injective, congrArg key⟩

theorem key_ne_of_head? {text : String} (h : text.toList.head? ≠ some 'r') (name : String) : key name ≠ text := by
  rintro rfl
  exact h (by simp [key, directory])

theorem key_ne_head (name : String) : key name ≠ Head.name := key_ne_of_head? (by decide) name

theorem key_ne_empty (name : String) : key name ≠ "" := key_ne_of_head? (by decide) name

theorem startsWith_directory_iff {text : String} :
    Text.startsWith directory text = true ↔ ∃ name, key name = text := by
  rw [Text.startsWith_iff]
  exact exists_congr fun name => eq_comm

end Keys

variable {σ : Type} [ObjectStore σ] {store after : σ} {key name pointer content : String}

/-! ## Trimming -/

@[simp] theorem trimPointer_newline (text : String) : trimPointer (text ++ "\n") = trimPointer text := by
  refine Text.trimEndWhile_append fun c hc => ?_
  obtain rfl : c = '\n' := by simpa using hc
  decide

@[simp] theorem trimPointer_trimPointer (text : String) : trimPointer (trimPointer text) = trimPointer text :=
  Text.trimEndWhile_trimEndWhile isTrailingBlank text

theorem trimPointer_encode_ne_empty (branch : String) : trimPointer (Head.symbolic branch).encode ≠ "" := by
  rw [trimPointer, Ne, Text.trimEndWhile_eq_empty_iff]
  intro h
  exact absurd (h 'r' (by simp [Head.encode, Head.branchMark])) (by decide)

/-- HEAD in a branch is written with nothing to trim but the line end. -/
theorem trimPointer_encode {branch : String} (h : trimPointer branch = branch) (hne : branch ≠ "") :
    trimPointer (Head.symbolic branch).encode = Head.branchMark ++ branch :=
  (trimPointer_newline _).trans (Text.trimEndWhile_append_left h hne)

theorem ofPointer_branchMark (branch : String) : Head.ofPointer (Head.branchMark ++ branch) = .symbolic branch := by
  rw [Head.ofPointer, if_pos (Text.startsWith_iff.2 ⟨branch, rfl⟩), Text.dropStart_append]

/-! ## Reading -/

theorem readPointer_of_read (hstored : ObjectStore.has store key = true)
    (hread : ObjectStore.read store key = .ok content) (hblank : trimPointer content ≠ "") :
    readPointer store key name = .ok (trimPointer content) := by
  rw [readPointer, if_pos hstored, hread]
  exact if_neg hblank

theorem readPointer_of_blank (hstored : ObjectStore.has store key = true)
    (hread : ObjectStore.read store key = .ok content) (hblank : trimPointer content = "") :
    readPointer store key name = .error (.refNotFound name) := by
  rw [readPointer, if_pos hstored, hread]
  exact if_pos hblank

theorem readPointer_eq_ok (h : readPointer store key name = .ok pointer) :
    ObjectStore.has store key = true ∧
      ∃ content, ObjectStore.read store key = .ok content ∧ trimPointer content = pointer ∧ pointer ≠ "" := by
  rw [readPointer] at h
  split at h
  case isFalse => cases h
  case isTrue hstored =>
    cases hread : ObjectStore.read store key with
    | error error =>
        rw [hread] at h
        cases h
    | ok content =>
        by_cases hblank : trimPointer content = ""
        · rw [hread] at h
          cases (if_pos hblank).symm.trans h
        · rw [hread] at h
          cases (if_neg hblank).symm.trans h
          exact ⟨hstored, content, rfl, rfl, hblank⟩

theorem readPointer_congr (hhas : ObjectStore.has after key = ObjectStore.has store key)
    (hread : ObjectStore.has store key = true → ObjectStore.read after key = ObjectStore.read store key) :
    readPointer after key name = readPointer store key name := by
  rw [readPointer, readPointer, hhas]
  split
  case isTrue hstored => rw [hread hstored]
  case isFalse => rfl

theorem trimPointer_of_readPointer (h : readPointer store key name = .ok pointer) :
    trimPointer pointer = pointer ∧ pointer ≠ "" := by
  obtain ⟨-, content, -, rfl, hblank⟩ := readPointer_eq_ok h
  exact ⟨trimPointer_trimPointer content, hblank⟩

/-! ## Resolving -/

theorem resolve_of_ne_head (h : name ≠ Head.name) : resolve store name = readPointer store (Ref.key name) name :=
  if_neg h

theorem head_eq_ok_of_readPointer (h : readPointer store Head.name Head.name = .ok pointer) :
    head store = .ok (.ofPointer pointer) := by
  rw [head, h]
  rfl

/-- HEAD resolves through a pointer of its own. -/
theorem readPointer_of_resolve_head {commit : String} (h : resolve store Head.name = .ok commit) :
    ∃ pointer, readPointer store Head.name Head.name = .ok pointer := by
  rw [resolve, if_pos rfl, head] at h
  cases hpointer : readPointer store Head.name Head.name with
  | error error =>
      rw [hpointer] at h
      cases h
  | ok pointer => exact ⟨pointer, rfl⟩

theorem resolve_head_of_symbolic {branch : String} (h : head store = .ok (.symbolic branch)) :
    resolve store Head.name = readPointer store (Ref.key branch) branch := by
  rw [resolve, if_pos rfl, h]
  rfl

theorem trimPointer_of_resolve {commit : String} (h : resolve store name = .ok commit) :
    trimPointer commit = commit ∧ commit ≠ "" := by
  by_cases hname : name = Head.name
  · subst hname
    obtain ⟨pointer, hpointer⟩ := readPointer_of_resolve_head h
    rw [resolve, if_pos rfl, head_eq_ok_of_readPointer hpointer] at h
    rw [Head.ofPointer] at h
    split at h
    case isTrue => exact trimPointer_of_readPointer h
    case isFalse =>
      cases h
      exact trimPointer_of_readPointer hpointer
  · exact trimPointer_of_readPointer ((resolve_of_ne_head hname).symm.trans h)

/-! ## Changing -/

theorem update_of_ne_head (h : name ≠ Head.name) (hash : String) :
    (update name hash : Transition σ Unit) = ObjectStore.write (Ref.key name) (hash ++ "\n") :=
  if_neg h

theorem delete_of_has (h : ObjectStore.has store (Ref.key name) = true) :
    delete name store = ObjectStore.remove (Ref.key name) store := by
  simp [delete, h]

theorem delete_of_not_has (h : ObjectStore.has store (Ref.key name) = false) :
    delete name store = (.error (.refNotFound name), store) := by
  simp [delete, h]

end VersionControl.Ref
