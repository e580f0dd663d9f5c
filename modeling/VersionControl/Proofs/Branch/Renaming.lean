import VersionControl.Proofs.Branch.Anchor
import VersionControl.Proofs.Branch.Listing
import VersionControl.Proofs.Ref.Resolution

/-!
# Renaming there and back

A branch that has changed its name leaves the old one and takes its commit and HEAD along. Changing it back writes the
pointers anew, without what may have trailed them, so the store is the same to everyone who asks for branches and refs.
-/

namespace VersionControl.Branch

variable {Allowed : String → Prop} {store after : MemoryStore} {repo : Repository MemoryStore}
  {name oldName newName commit : String} {active : Option String}

/-! ## Stores that read alike -/

/-- Under every key there is the same to read, less what trails it. -/
def ReadsAlike (store after : MemoryStore) : Prop :=
  ∀ key, (after.objects.get? key).map Ref.trimPointer = (store.objects.get? key).map Ref.trimPointer

namespace ReadsAlike

theorem has (h : ReadsAlike store after) (key : String) : ObjectStore.has after key = ObjectStore.has store key := by
  have hsome := congrArg Option.isSome (h key)
  rwa [Option.isSome_map, Option.isSome_map] at hsome

/-- A pointer that is read is the same, and one that is refused is refused by the same name. -/
theorem readPointer (h : ReadsAlike store after) (key name : String) :
    Ref.readPointer after key name = Ref.readPointer store key name := by
  rcases Ref.readPointer_cases store ⟨key, name⟩ with ⟨content, hget, hbare, hread⟩ | ⟨hvoid, hrefused⟩
  · rw [hread]
    refine Ref.readPointer_eq_ok_iff.2 ⟨?_, hbare.1⟩
    rw [h key, hget]
    rfl
  · rw [hrefused]
    rcases Ref.readPointer_cases after ⟨key, name⟩ with ⟨content, hget, hbare, -⟩ | ⟨-, hrefused⟩
    · obtain ⟨stored, hstored, hsame⟩ := Option.map_eq_some_iff.1 ((h key).symm.trans (congrArg _ hget))
      exact absurd (hsame.symm.trans (Ref.trimPointer_eq_empty_iff.2 (hvoid stored hstored))) hbare.1
    · exact hrefused

theorem head (h : ReadsAlike store after) : Ref.head after = Ref.head store := by
  rw [Ref.head, Ref.head, h.readPointer]

theorem resolve (h : ReadsAlike store after) (name : String) : Ref.resolve after name = Ref.resolve store name := by
  simp only [Ref.resolve, h.head, h.readPointer]

theorem isStored (h : ReadsAlike store after) (name : String) : Ref.isStored after name = Ref.isStored store name := by
  simp only [Ref.isStored, h.has]

theorem current (h : ReadsAlike store after) : current after = current store := by
  simp only [Branch.current, h.has, h.head]

theorem list (h : ReadsAlike store after) : list after = list store := by
  have hpointers : pointers after = pointers store := Dict.ext_get? fun name => by
    rw [get?_pointers, get?_pointers, h (Ref.key name)]
  simp only [Branch.list, names_eq, hpointers, h.current, h.resolve]

end ReadsAlike

/-- Two stores that answer alike to everyone who asks for branches and refs. -/
structure AnswersAlike (store after : MemoryStore) : Prop where
  list : list after = list store
  current : current after = current store
  resolve : ∀ name, Ref.resolve after name = Ref.resolve store name
  isStored : ∀ name, Ref.isStored after name = Ref.isStored store name

theorem ReadsAlike.answersAlike (h : ReadsAlike store after) : AnswersAlike store after :=
  ⟨h.list, h.current, h.resolve, h.isStored⟩

/-! ## There -/

/-- What becomes of a store in which a branch changes its name. -/
structure HasMoved (oldName newName : String) (store after : MemoryStore) : Prop where
  commit : ∃ commit, Ref.resolve store oldName = .ok commit ∧ Ref.resolve after newName = .ok commit
  gone : Ref.isStored after oldName = false
  head : Ref.resolve after Head.name = Ref.resolve store Head.name
  others : ∀ name, name ≠ oldName → name ≠ newName →
    Ref.resolve after name = Ref.resolve store name ∧ Ref.isStored after name = Ref.isStored store name
  objects : ∀ key, key ≠ Head.name → key ≠ Ref.key oldName → key ≠ Ref.key newName →
    after.objects.get? key = store.objects.get? key

theorem isStored_moveTo_old (oldName newName commit : String) (wasCurrent : Bool) (store : MemoryStore) :
    isStored (moveTo oldName newName commit wasCurrent store) oldName = false := by
  cases wasCurrent with
  | true => exact (isStored_enter newName _ oldName).trans isStored_drop_self
  | false => exact isStored_drop_self

section New

variable (hvalid : BranchName.isValid newName = true) (hne : oldName ≠ newName)

include hvalid hne

theorem isStored_moveTo_new (wasCurrent : Bool) :
    isStored (moveTo oldName newName commit wasCurrent store) newName = true := by
  have hdropped : isStored (drop oldName (point newName commit store)) newName = true :=
    (isStored_drop_of_ne hne).trans (isStored_point_self hvalid)
  cases wasCurrent with
  | true => exact (isStored_enter newName _ newName).trans hdropped
  | false => exact hdropped

theorem resolve_moveTo_new (hcommit : IsTrimmed commit) (wasCurrent : Bool) :
    Ref.resolve (moveTo oldName newName commit wasCurrent store) newName = .ok commit := by
  have hget : (moveTo oldName newName commit wasCurrent store).objects.get? (Ref.key newName) =
      (point newName commit store).objects.get? (Ref.key newName) := by
    simp [hne, (Ref.key_ne_head newName).symm]
  rw [Ref.resolve_of_get?_eq (BranchName.ne_head hvalid) hget, resolve_point hvalid hcommit]

end New

variable {wasCurrent : Bool}

theorem Occurs.has_head_of_renamed (h : Occurs Allowed store (.renamed oldName newName wasCurrent) after) :
    ObjectStore.has after Head.name = ObjectStore.has store Head.name := by
  cases h with
  | @renamed _ _ commit active hvalid hold hnew hresolve hactive =>
      by_cases hcurrent : active = some oldName
      · have hbefore : ObjectStore.has store Head.name = true := has_head_of_current (hcurrent ▸ hactive)
        rw [hbefore, MemoryStore.has_iff]
        exact ⟨(Head.symbolic newName).encode, by simp [hcurrent]⟩
      · exact MemoryStore.has_congr (by simp [hcurrent, Ref.key_ne_head])

theorem Occurs.hasMoved (h : Occurs Allowed store (.renamed oldName newName wasCurrent) after)
    (hother : current store ≠ .ok (some newName)) : HasMoved oldName newName store after := by
  have hhead := h.resolve_head_of_renamed hother
  have hhas := h.has_head_of_renamed
  cases h with
  | @renamed _ _ commit active hvalid hold hnew hresolve hactive =>
      have hne := ne_of_isStored hold hnew
      have hobjects (key : String) (hkey : key ≠ Head.name) (hleft : key ≠ Ref.key oldName)
          (hentered : key ≠ Ref.key newName) :
          (moveTo oldName newName commit (active = some oldName) store).objects.get? key =
            store.objects.get? key := by
        simp [hkey.symm, hleft.symm, hentered.symm]
      refine ⟨⟨commit, hresolve, resolve_moveTo_new hvalid hne (Ref.trimPointer_of_resolve hresolve) _⟩, ?_, hhead, ?_,
        hobjects⟩
      · have hgone := isStored_moveTo_old oldName newName commit (active = some oldName) store
        rwa [isStored, (isStored_iff.1 hold).1, Bool.true_and] at hgone
      · intro name hleft hentered
        by_cases hname : name = Head.name
        · subst hname
          exact ⟨hhead, hhas⟩
        · have hget := hobjects (Ref.key name) (Ref.key_ne_head name) (mt Ref.key_inj.1 hleft)
            (mt Ref.key_inj.1 hentered)
          rw [Ref.resolve_of_ne_head hname, Ref.resolve_of_ne_head hname, Ref.isStored, Ref.isStored, if_neg hname,
            if_neg hname]
          exact ⟨Ref.readPointer_of_get?_eq name hget, MemoryStore.has_congr hget⟩

/-! ## And back -/

/-- The pointer of a HEAD that is in a branch. -/
theorem get?_head_of_current (h : current store = .ok (some name)) :
    (store.objects.get? Head.name).map Ref.trimPointer = some (Head.branchMark ++ name) := by
  have hhead := head_of_current h
  rcases Ref.head_cases store with ⟨content, hget, -, hread⟩ | ⟨-, hrefused⟩
  · have hpointer : Head.ofPointer (Ref.trimPointer content) = .symbolic name :=
      Except.ok.inj (hread.symm.trans hhead)
    rw [hget, ← Ref.ofPointer_eq_symbolic hpointer]
    rfl
  · cases hrefused.symm.trans hhead

theorem readsAlike_moveTo_moveTo (hvalid : BranchName.isValid oldName = true) (hcommit : IsTrimmed commit)
    (hold : (store.objects.get? (Ref.key oldName)).map Ref.trimPointer = some commit)
    (hnew : store.objects.get? (Ref.key newName) = none)
    (hhead : wasCurrent = true →
      (store.objects.get? Head.name).map Ref.trimPointer = some (Head.branchMark ++ oldName)) :
    ReadsAlike store
      (moveTo newName oldName commit wasCurrent (moveTo oldName newName commit wasCurrent store)) := by
  intro key
  by_cases hkey : wasCurrent = true ∧ Head.name = key
  · obtain ⟨rfl, rfl⟩ := hkey
    rw [hhead rfl, get?_moveTo, if_pos ⟨rfl, rfl⟩, Option.map_some,
      Ref.trimPointer_encode (BranchName.trimPointer_eq_self hvalid) (BranchName.ne_empty hvalid)]
  · rw [get?_moveTo, if_neg hkey]
    by_cases hentered : Ref.key newName = key
    · rw [if_pos hentered, ← hentered, hnew]
    · rw [if_neg hentered]
      by_cases hleft : Ref.key oldName = key
      · rw [if_pos hleft, ← hleft, hold, Option.map_some, Ref.trimPointer_newline, hcommit.1]
      · rw [if_neg hleft, get?_moveTo, if_neg hkey, if_neg hleft, if_neg hentered]

/-- HEAD is in the branch by its new name if it was by its old one, unless it waited for the new name. -/
theorem current_moveTo (hvalid : BranchName.isValid newName = true) (hactive : current store = .ok active)
    (hother : active ≠ some newName) :
    ∃ now, current (moveTo oldName newName commit (active = some oldName) store) = .ok now ∧
      (now = some newName ↔ active = some oldName) := by
  by_cases hcurrent : active = some oldName
  · rw [decide_eq_true hcurrent]
    exact ⟨some newName, current_of_symbolic (head_of_enter hvalid), by simp [hcurrent]⟩
  · rw [decide_eq_false hcurrent]
    refine ⟨active, ?_, by simp [hcurrent, hother]⟩
    exact (current_drop oldName _).trans ((current_point newName commit store).trans hactive)

/-- The name that a branch has left is free for it to come back to. -/
theorem rename_of_moveTo (hold : BranchName.isValid oldName = true) (hnew : BranchName.isValid newName = true)
    (hne : oldName ≠ newName) (hcommit : IsTrimmed commit)
    (hactive : current (moveTo oldName newName commit wasCurrent store) = .ok active)
    (published : List BranchEvent) :
    rename newName oldName ⟨moveTo oldName newName commit wasCurrent store, published⟩ =
      (.ok (), ⟨moveTo newName oldName commit (active = some newName)
          (moveTo oldName newName commit wasCurrent store),
        published ++ [.renamed newName oldName (active = some newName)]⟩) := by
  have hentered : isStored (moveTo oldName newName commit wasCurrent store) newName = true :=
    isStored_moveTo_new hnew hne wasCurrent
  have hleft := isStored_moveTo_old oldName newName commit wasCurrent store
  have hread : Ref.resolve (moveTo oldName newName commit wasCurrent store) newName = .ok commit :=
    resolve_moveTo_new hnew hne hcommit wasCurrent
  rw [rename_of_resolve hold hentered hleft hread hactive, move_eq hold hentered hleft]

theorem rename_of_ok (h : (rename oldName newName repo).1 = .ok ()) :
    ∃ active commit, BranchName.isValid newName = true ∧ isStored repo.store oldName = true ∧
      isStored repo.store newName = false ∧ Ref.resolve repo.store oldName = .ok commit ∧
      current repo.store = .ok active ∧
      rename oldName newName repo = (.ok (), ⟨moveTo oldName newName commit (active = some oldName) repo.store,
        repo.published ++ [.renamed oldName newName (active = some oldName)]⟩) := by
  rcases rename_cases repo oldName newName with
    ⟨error, -, hrefused⟩ | ⟨active, commit, hnew, hstored, hmissing, hresolve, hactive, hrename⟩
  · rw [hrefused] at h
    cases h
  · exact ⟨active, commit, hnew, hstored, hmissing, hresolve, hactive,
      hrename.trans (move_eq hnew hstored hmissing commit _)⟩

/-- A branch that changes its name leaves all other refs and what HEAD leads to as they were. If HEAD did not wait for
the new name, the branch can change its name back, and nobody who asks for branches and refs will notice. -/
theorem rename_undone (h : (rename oldName newName repo).1 = .ok ())
    (hother : current repo.store ≠ .ok (some newName)) :
    let between := (rename oldName newName repo).2
    let restored := rename newName oldName between
    HasMoved oldName newName repo.store between.store ∧
      restored.1 = .ok () ∧ AnswersAlike repo.store restored.2.store := by
  obtain ⟨active, commit, hnew, hstored, hmissing, hresolve, hactive, hrename⟩ := rename_of_ok h
  have hold := (isStored_iff.1 hstored).1
  have hne := ne_of_isStored hstored hmissing
  have hcommit : IsTrimmed commit := Ref.trimPointer_of_resolve hresolve
  have hoccurs : Occurs (fun _ => True) repo.store (.renamed oldName newName (active = some oldName)) _ :=
    .renamed hnew hstored hmissing hresolve hactive
  rw [hrename]
  refine ⟨hoccurs.hasMoved hother, ?_⟩
  obtain ⟨now, hnow, hfollows⟩ := current_moveTo hnew hactive fun heq => hother (heq ▸ hactive)
  rw [rename_of_moveTo hold hnew hne hcommit hnow, decide_eq_decide.2 hfollows]
  refine ⟨rfl, (readsAlike_moveTo_moveTo hold hcommit ?_ ?_ fun hcurrent => ?_).answersAlike⟩
  · rw [Ref.resolve_of_ne_head (BranchName.ne_head hold)] at hresolve
    exact (Ref.readPointer_eq_ok_iff.1 hresolve).1
  · exact get?_key_of_missing hnew hmissing
  · exact get?_head_of_current (of_decide_eq_true hcurrent ▸ hactive)

/-- HEAD is in `main`, and blanks trail what is stored. -/
def untidyMain : Repository MemoryStore :=
  { store := ⟨.ofList [("HEAD", "ref: main \r\n"), ("refs/heads/dev", "c2"), ("refs/heads/main", "c1  \n\n")]⟩ }

/-- The current branch moves below its own name and back, which tidies the store up. -/
theorem rename_undone_of_untidyMain :
    let between := (rename "main" "main/old" untidyMain).2
    let restored := (rename "main/old" "main" between).2
    (rename "main" "main/old" untidyMain).1 = .ok () ∧ current untidyMain.store ≠ .ok (some "main/old") ∧
      Ref.resolve between.store Head.name = .ok "c1" ∧ Ref.isStored between.store "main" = false ∧
      restored.store ≠ untidyMain.store ∧
      list restored.store = .ok [⟨"dev", "c2", false⟩, ⟨"main", "c1", true⟩] := by
  intro between restored
  have hdone : (rename "main" "main/old" untidyMain).1 = .ok () := by decide +kernel
  have hother : current untidyMain.store ≠ .ok (some "main/old") := by decide +kernel
  obtain ⟨hmoved, -, halike⟩ := rename_undone hdone hother
  have hhead : Ref.resolve untidyMain.store Head.name = .ok "c1" := by decide +kernel
  have hlist : list untidyMain.store = .ok [⟨"dev", "c2", false⟩, ⟨"main", "c1", true⟩] := by decide +kernel
  exact ⟨hdone, hother, hmoved.head.trans hhead, hmoved.gone, by decide +kernel, halike.list.trans hlist⟩

/-- A HEAD that waited for the new name goes along on the way back. -/
theorem current_of_waiting (h : (rename oldName newName repo).1 = .ok ())
    (hwaiting : current repo.store = .ok (some newName)) :
    current (rename newName oldName (rename oldName newName repo).2).2.store = .ok (some oldName) := by
  obtain ⟨active, commit, hnew, hstored, hmissing, hresolve, hactive, hrename⟩ := rename_of_ok h
  have hold := (isStored_iff.1 hstored).1
  have hne := ne_of_isStored hstored hmissing
  have hcommit : IsTrimmed commit := Ref.trimPointer_of_resolve hresolve
  cases hwaiting.symm.trans hactive
  have hstill : current (moveTo oldName newName commit false repo.store) = .ok (some newName) :=
    (current_drop oldName _).trans ((current_point newName commit repo.store).trans hactive)
  have hparted : decide (some newName = some oldName) = false := by simpa using hne.symm
  rw [hrename, hparted, rename_of_moveTo hold hnew hne hcommit hstill, decide_eq_true rfl]
  exact current_of_symbolic (head_of_enter hold)

end VersionControl.Branch
