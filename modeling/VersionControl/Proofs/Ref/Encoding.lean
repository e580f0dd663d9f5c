import VersionControl.Proofs.Ref.Resolution

/-!
# HEAD as written and as read

HEAD is written as a line with a mark before a branch and none before a commit, and is trimmed before the mark is
looked for. So it is read as what was written exactly if a branch is not blank and a commit does not look like a
marked branch.
-/

namespace VersionControl

namespace Head

def isSymbolic : Head → Bool
  | .symbolic _ => true
  | .detached _ => false

/-- A branch is not blank, and a commit is not written like a branch that is not. -/
def IsUnambiguous : Head → Prop
  | .symbolic branch => ¬Ref.IsBlank branch
  | .detached hash => ¬∃ branch, hash = branchMark ++ branch ∧ ¬Ref.IsBlank branch

theorem eq_of_ref_eq {a b : Head} (hkind : a.isSymbolic = b.isSymbolic) (href : a.ref = b.ref) : a = b := by
  cases a <;> cases b
  case symbolic.symbolic => exact congrArg symbolic href
  case detached.detached => exact congrArg detached href
  all_goals cases hkind

end Head

namespace Ref

variable {store : MemoryStore} {text branch hash : String} {written : Head}

/-! ## Written pointers -/

theorem IsBare.not_isBlank (h : IsBare text) : ¬IsBlank text := by
  rw [← trimPointer_eq_empty_iff, (isBare_iff.1 h).1]
  exact h.1

theorem trimPointer_mark_of_not_isBlank (h : ¬IsBlank branch) :
    trimPointer (Head.branchMark ++ branch) = Head.branchMark ++ trimPointer branch :=
  Text.trimEndWhile_append_of_ne_empty (mt trimPointer_eq_empty_iff.1 h)

/-- The mark of a blank branch loses its own blank. -/
theorem trimPointer_mark_of_isBlank (h : IsBlank branch) : trimPointer (Head.branchMark ++ branch) = "ref:" := by
  calc trimPointer (Head.branchMark ++ branch)
      = trimPointer Head.branchMark :=
        Text.trimEndWhile_append fun c hc => isTrailingBlank_iff.2 (h c hc)
    _ = "ref:" := by decide

/-- A pointer is read as a branch if it was marked and more than the mark is left. -/
theorem startsWith_trimPointer_iff : Text.startsWith Head.branchMark (trimPointer hash) = true ↔
    ∃ branch, hash = Head.branchMark ++ branch ∧ ¬IsBlank branch := by
  constructor
  · intro hmark
    obtain ⟨branch, hpointer⟩ := Text.startsWith_iff.1 hmark
    obtain ⟨tail, htext, -⟩ := Text.exists_eq_trimEndWhile_append isTrailingBlank hash
    refine ⟨branch ++ tail, ?_, fun hblank => ?_⟩
    · rw [← String.append_assoc, ← hpointer]
      exact htext
    -- Behind a blank rest the mark would have been trimmed too, so it would be shorter than itself.
    · have hprefix : IsBlank branch := fun c hc => hblank c (by simp [hc])
      have hself : trimPointer (Head.branchMark ++ branch) = Head.branchMark ++ branch := by
        rw [← hpointer, trimPointer_trimPointer]
      have hlength : "ref:".length = Head.branchMark.length + branch.length := by
        rw [← String.length_append, ← hself, trimPointer_mark_of_isBlank hprefix]
      have hmarkLength : Head.branchMark.length = "ref:".length + 1 := by decide
      omega
  · rintro ⟨branch, rfl, hblank⟩
    rw [trimPointer_mark_of_not_isBlank hblank]
    exact Text.startsWith_iff.2 ⟨_, rfl⟩

/-! ## Reading what was written -/

theorem head_of_get? {content : String} (hget : store.objects.get? Head.name = some content)
    (hblank : ¬IsBlank content) : head store = .ok (.ofPointer (trimPointer content)) := by
  rcases head_cases store with ⟨other, hother, -, hhead⟩ | ⟨hvoid, -⟩
  · cases hget.symm.trans hother
    exact hhead
  · exact absurd (hvoid content hget) hblank

theorem head_of_blank {content : String} (hget : store.objects.get? Head.name = some content)
    (hblank : IsBlank content) : head store = .error (.refNotFound Head.name) := by
  rcases head_cases store with ⟨other, hother, hbare, -⟩ | ⟨-, hhead⟩
  · cases hget.symm.trans hother
    exact absurd (trimPointer_eq_empty_iff.2 hblank) hbare.1
  · exact hhead

/-- A mark with more than blanks behind it makes a branch, whatever it was written for. -/
theorem head_of_marked (hget : store.objects.get? Head.name = some (Head.branchMark ++ branch ++ "\n"))
    (hblank : ¬IsBlank branch) : head store = .ok (.symbolic (trimPointer branch)) := by
  have hpointer : ¬IsBlank (Head.branchMark ++ branch ++ "\n") := by
    rw [isBlank_newline_iff]
    exact fun h => hblank fun c hc => h c (by simp [hc])
  rw [head_of_get? hget hpointer, trimPointer_newline, trimPointer_mark_of_not_isBlank hblank,
    ofPointer_branchMark]

/-- A call writes HEAD, which is then never read as the other kind, and is read as it was written if that is
bare. -/
def ReadsBack (call : Transition MemoryStore Unit) (store : MemoryStore) (written : Head) : Prop :=
  ∃ after, call store = (.ok (), after) ∧
    (∀ current, head after = .ok current → current.isSymbolic = written.isSymbolic) ∧
    (IsBare written.ref → head after = .ok written)

theorem setHead_eq (store : MemoryStore) (written : Head) :
    setHead written store = (.ok (), ⟨store.objects.insert Head.name written.encode⟩) :=
  store.write_eq (show Head.name ≠ "" by decide) written.encode

theorem head_setHead_of_blank {after : MemoryStore} (hblank : IsBlank branch)
    (hget : after.objects.get? Head.name = some (Head.symbolic branch).encode) :
    head after = .ok (.detached "ref:") := by
  have hpointer : trimPointer (Head.symbolic branch).encode = "ref:" :=
    (trimPointer_newline _).trans (trimPointer_mark_of_isBlank hblank)
  have hcontent : ¬IsBlank (Head.symbolic branch).encode :=
    mt trimPointer_eq_empty_iff.2 (trimPointer_encode_ne_empty branch)
  rw [head_of_get? hget hcontent, hpointer]
  decide

/-- It is enough that HEAD is read as the kind that was written, less what is trimmed. -/
theorem readsBack_of_head {call : Transition MemoryStore Unit} {after : MemoryStore} {current : Head}
    (hcall : call store = (.ok (), after)) (hhead : head after = .ok current)
    (hkind : current.isSymbolic = written.isSymbolic) (href : current.ref = trimPointer written.ref) :
    ReadsBack call store written := by
  refine ⟨after, hcall, fun other hother => ?_, fun hbare => ?_⟩
  · cases hhead.symm.trans hother
    exact hkind
  · rw [hhead, Head.eq_of_ref_eq hkind (href.trans (isBare_iff.1 hbare).1)]

theorem readsBack_setHead_symbolic_iff (store : MemoryStore) (branch : String) :
    ReadsBack (setHead (.symbolic branch)) store (.symbolic branch) ↔ (Head.symbolic branch).IsUnambiguous := by
  have hcall := setHead_eq store (.symbolic branch)
  constructor
  · rintro ⟨after, hafter, hkind, -⟩ hblank
    cases hcall.symm.trans hafter
    cases hkind _ (head_setHead_of_blank hblank (by simp))
  · intro hblank
    exact readsBack_of_head hcall (head_of_marked (by simp [Head.encode]) hblank) rfl rfl

theorem readsBack_setHead_detached_iff (store : MemoryStore) (hash : String) :
    ReadsBack (setHead (.detached hash)) store (.detached hash) ↔ (Head.detached hash).IsUnambiguous := by
  have hcall := setHead_eq store (.detached hash)
  have hget : (⟨store.objects.insert Head.name (hash ++ "\n")⟩ : MemoryStore).objects.get? Head.name =
      some (hash ++ "\n") := by simp
  constructor
  · rintro ⟨after, hafter, hkind, -⟩ ⟨branch, rfl, hblank⟩
    cases hcall.symm.trans hafter
    cases hkind _ (head_of_marked hget hblank)
  · intro hplain
    by_cases hblank : IsBlank hash
    · have hhead := head_of_blank hget (isBlank_newline_iff.2 hblank)
      refine ⟨_, hcall, fun current hcurrent => ?_, fun hbare => absurd hblank hbare.not_isBlank⟩
      cases hhead.symm.trans hcurrent
    · have hhead := head_of_get? hget (mt isBlank_newline_iff.1 hblank)
      rw [trimPointer_newline, Head.ofPointer, if_neg (mt startsWith_trimPointer_iff.1 hplain)] at hhead
      exact readsBack_of_head hcall hhead rfl rfl

/-- Whatever a store holds, HEAD is read back exactly if what was written is unambiguous, by either call that
detaches it. -/
theorem readsBack_iff (store : MemoryStore) :
    (∀ written, ReadsBack (setHead written) store written ↔ written.IsUnambiguous) ∧
      ∀ hash, ReadsBack (update Head.name hash) store (.detached hash) ↔ (Head.detached hash).IsUnambiguous := by
  have hdetached := readsBack_setHead_detached_iff store
  refine ⟨fun written => ?_, hdetached⟩
  cases written with
  | symbolic branch => exact readsBack_setHead_symbolic_iff store branch
  | detached hash => exact hdetached hash

/-- A commit that looks like a marked branch is read as the branch, and a blank branch as a commit. -/
theorem not_readsBack_of_ambiguous :
    ¬ReadsBack (update Head.name "ref: main") .empty (.detached "ref: main") ∧
      ¬ReadsBack (setHead (.symbolic "")) .empty (.symbolic "") := by
  constructor
  · rintro ⟨after, hafter, hkind, -⟩
    have hhead : head (update Head.name "ref: main" MemoryStore.empty).2 = .ok (.symbolic "main") := by decide
    rw [hafter] at hhead
    cases hkind _ hhead
  · rintro ⟨after, hafter, hkind, -⟩
    have hhead : head (setHead (.symbolic "") MemoryStore.empty).2 = .ok (.detached "ref:") := by decide
    rw [hafter] at hhead
    cases hkind _ hhead

end Ref

end VersionControl
