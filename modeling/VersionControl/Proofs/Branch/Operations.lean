import VersionControl.Branch.Command
import VersionControl.Proofs.Branch.Name
import VersionControl.Proofs.Ref

/-!
# What branch operations come to

Each operation first only looks. Either it is refused then, for a reason that is known, and nothing has changed, or it
goes on to the changes it is for, about which everything is known that was looked at.
-/

namespace VersionControl.Branch

variable {σ : Type} {repo : Repository σ} {store : σ} {name : String}

/-! ## Changes that are told -/

/-- A change of the store with the event that tells of it. -/
def changeAndTell (t : Transition σ Unit) (event : BranchEvent) : Operation σ Unit := do
  change t
  publish event

theorem change_apply (t : Transition σ Unit) (repo : Repository σ) :
    change t repo = ((t repo.store).1, { repo with store := (t repo.store).2 }) := rfl

theorem changeAndTell_of_ok {t : Transition σ Unit} {event : BranchEvent} (h : t repo.store = (.ok (), store)) :
    changeAndTell t event repo = (.ok (), { store, published := repo.published ++ [event] }) := by
  simp [changeAndTell, change_apply, publish, h]

theorem changeAndTell_of_error {t : Transition σ Unit} {event : BranchEvent} {error : Error}
    (h : t repo.store = (.error error, store)) :
    changeAndTell t event repo = (.error error, { repo with store }) := by
  simp [changeAndTell, change_apply, h]

variable [ObjectStore σ]

/-! ## Looking -/

theorem isStored_iff : isStored store name = true ↔
    BranchName.isValid name = true ∧ ObjectStore.has store (Ref.key name) = true := by
  rw [isStored, Bool.and_eq_true]
  refine and_congr_right fun hvalid => ?_
  rw [Ref.isStored, if_neg (BranchName.ne_head hvalid)]

theorem ne_of_isStored {other : String} (h : isStored store name = true) (hother : isStored store other = false) :
    name ≠ other := by
  rintro rfl
  rw [h] at hother
  cases hother

theorem current_of_readPointer {pointer : String}
    (h : Ref.readPointer store Head.name Head.name = .ok pointer) : ∃ active, current store = .ok active := by
  rw [current, if_pos (Ref.readPointer_eq_ok h).1, Ref.head_eq_ok_of_readPointer h]
  cases Head.ofPointer pointer with
  | symbolic branch => exact ⟨some branch, rfl⟩
  | detached hash => exact ⟨none, rfl⟩

theorem has_head_of_current (h : current store = .ok (some name)) :
    ObjectStore.has store Head.name = true := by
  rw [current] at h
  split at h
  case isTrue hstored => exact hstored
  case isFalse => cases h

theorem current_of_symbolic (h : Ref.head store = .ok (.symbolic name)) : current store = .ok (some name) := by
  have hhas : ObjectStore.has store Head.name = true := by
    cases hpointer : Ref.readPointer store Head.name Head.name with
    | error error =>
        rw [Ref.head, hpointer] at h
        cases h
    | ok pointer => exact (Ref.readPointer_eq_ok hpointer).1
  rw [current, if_pos hhas, h]
  rfl

theorem head_of_current (h : current store = .ok (some name)) : Ref.head store = .ok (.symbolic name) := by
  rw [current, if_pos (has_head_of_current h)] at h
  cases hhead : Ref.head store with
  | error error =>
      rw [hhead] at h
      cases h
  | ok head =>
      rw [hhead] at h
      cases head with
      | detached hash => cases h
      | symbolic other =>
          cases h
          rfl

/-! ## Refusals -/

/-- Why a command is refused before it changes anything: what is amiss first among the things that it looks at. -/
inductive Refuses (store : σ) : BranchCommand → Error → Prop
  | createInvalid {name : String} {base : Option String} : BranchName.isValid name = false →
      Refuses store (.create name base) .invalidBranchName
  | createTaken {name : String} {base : Option String} : BranchName.isValid name = true →
      isStored store name = true → Refuses store (.create name base) .branchAlreadyExists
  | createBaseless {name : String} {base : Option String} {error : Error} : BranchName.isValid name = true →
      isStored store name = false → startingPoint store base = .error error →
      Refuses store (.create name base) error
  | checkoutMissing {name : String} : isStored store name = false →
      Refuses store (.checkout name false) .branchNotFound
  | checkoutUncreated {name : String} {error : Error} : isStored store name = false →
      Refuses store (.create name none) error → Refuses store (.checkout name true) error
  | checkoutUntold {name : String} {createMissing : Bool} {error : Error} : isStored store name = true →
      current store = .error error → Refuses store (.checkout name createMissing) error
  | removeMissing {name : String} {force : Bool} : isStored store name = false →
      Refuses store (.remove name force) .branchNotFound
  | removeUntold {name : String} {force : Bool} {error : Error} : isStored store name = true →
      current store = .error error → Refuses store (.remove name force) error
  | removeCurrent {name : String} : isStored store name = true → current store = .ok (some name) →
      Refuses store (.remove name false) .cannotDeleteCurrentBranch
  | removeUnread {name : String} {force : Bool} {active : Option String} {error : Error} :
      isStored store name = true → current store = .ok active → (active = some name → force = true) →
      Ref.resolve store name = .error error → Refuses store (.remove name force) error
  | renameInvalid {oldName newName : String} : BranchName.isValid newName = false →
      Refuses store (.rename oldName newName) .invalidBranchName
  | renameMissing {oldName newName : String} : BranchName.isValid newName = true →
      isStored store oldName = false → Refuses store (.rename oldName newName) .branchNotFound
  | renameTaken {oldName newName : String} : BranchName.isValid newName = true →
      isStored store oldName = true → isStored store newName = true →
      Refuses store (.rename oldName newName) .branchAlreadyExists
  | renameUnread {oldName newName : String} {error : Error} : BranchName.isValid newName = true →
      isStored store oldName = true → isStored store newName = false →
      Ref.resolve store oldName = .error error → Refuses store (.rename oldName newName) error
  | renameUntold {oldName newName commit : String} {error : Error} : BranchName.isValid newName = true →
      isStored store oldName = true → isStored store newName = false →
      Ref.resolve store oldName = .ok commit → current store = .error error →
      Refuses store (.rename oldName newName) error

/-! ## Changing -/

/-- The steps that a checkout ends with once the branch is there. -/
def switchTo (name : String) : Operation σ Unit := do
  let previous ← look current
  change (Ref.setHead (.symbolic name))
  publish (.checkedOut name previous)

def move (oldName newName commit : String) (wasCurrent : Bool) : Operation σ Unit := do
  change (Ref.update newName commit)
  change (Ref.delete oldName)
  followRename newName wasCurrent
  publish (.renamed oldName newName wasCurrent)

theorem create_cases (repo : Repository σ) (name : String) (base : Option String) :
    (∃ error, Refuses repo.store (.create name base) error ∧ create name base repo = (.error error, repo)) ∨
    ∃ commit, BranchName.isValid name = true ∧ isStored repo.store name = false ∧
      startingPoint repo.store base = .ok commit ∧
      create name base repo = changeAndTell (Ref.update name commit) (.created name commit) repo := by
  cases hvalid : BranchName.isValid name with
  | false => exact .inl ⟨_, .createInvalid hvalid, by simp [create, hvalid]⟩
  | true =>
      cases hstored : isStored repo.store name with
      | true => exact .inl ⟨_, .createTaken hvalid hstored, by simp [create, see, hvalid, hstored]⟩
      | false =>
          cases hbase : startingPoint repo.store base with
          | error error =>
              exact .inl ⟨error, .createBaseless hvalid hstored hbase, by
                simp [create, see, look, hvalid, hstored, hbase]⟩
          | ok commit =>
              refine .inr ⟨commit, rfl, rfl, rfl, ?_⟩
              simp [create, see, look, hvalid, hstored, hbase, changeAndTell]

section Move

variable {oldName newName commit : String} {written moved followed : σ}

theorem move_of_error {wasCurrent : Bool} {error : Error}
    (hwrite : Ref.update newName commit repo.store = (.error error, store)) :
    move oldName newName commit wasCurrent repo = (.error error, { repo with store }) := by
  simp [move, change_apply, hwrite]

variable (hwrite : Ref.update newName commit repo.store = (.ok (), written))
  (hdelete : Ref.delete oldName written = (.ok (), moved))

include hwrite hdelete

theorem move_of_not_current : move oldName newName commit false repo =
    (.ok (), { store := moved, published := repo.published ++ [.renamed oldName newName false] }) := by
  simp [move, change_apply, followRename, publish, hwrite, hdelete]

theorem move_of_current (hset : Ref.setHead (.symbolic newName) moved = (.ok (), followed)) :
    move oldName newName commit true repo =
      (.ok (), { store := followed, published := repo.published ++ [.renamed oldName newName true] }) := by
  simp [move, change_apply, followRename, publish, hwrite, hdelete, hset]

end Move

theorem require_cases (repo : Repository σ) (name : String) (createMissing : Bool) :
    (isStored repo.store name = true ∧ require name createMissing repo = (.ok (), repo)) ∨
    (isStored repo.store name = false ∧ createMissing = false ∧
      require name createMissing repo = (.error .branchNotFound, repo)) ∨
    isStored repo.store name = false ∧ createMissing = true ∧
      require name createMissing repo = create name none repo := by
  cases hstored : isStored repo.store name with
  | true => exact .inl ⟨rfl, by simp [require, see, hstored]⟩
  | false =>
      cases createMissing with
      | false => exact .inr (.inl ⟨rfl, rfl, by simp [require, see, hstored]⟩)
      | true => exact .inr (.inr ⟨rfl, rfl, by simp [require, see, hstored]⟩)

theorem checkout_eq (name : String) (createMissing : Bool) :
    (checkout name createMissing : Operation σ Unit) =
      (require name createMissing >>= fun _ => switchTo name) := rfl

theorem switchTo_of_current {previous : Option String} (h : current repo.store = .ok previous) :
    switchTo name repo = changeAndTell (Ref.setHead (.symbolic name)) (.checkedOut name previous) repo := by
  simp [switchTo, look, h, changeAndTell]

theorem switchTo_cases (repo : Repository σ) (name : String) :
    (∃ error, current repo.store = .error error ∧ switchTo name repo = (.error error, repo)) ∨
    ∃ previous, current repo.store = .ok previous ∧ switchTo name repo =
      changeAndTell (Ref.setHead (.symbolic name)) (.checkedOut name previous) repo := by
  cases hcurrent : current repo.store with
  | error error => exact .inl ⟨error, rfl, by simp [switchTo, look, hcurrent]⟩
  | ok previous => exact .inr ⟨previous, rfl, switchTo_of_current hcurrent⟩

theorem remove_of_resolve {force : Bool} {active : Option String} {commit : String}
    (hstored : isStored repo.store name = true) (hcurrent : current repo.store = .ok active)
    (hforced : active = some name → force = true) (hresolve : Ref.resolve repo.store name = .ok commit) :
    remove name force repo = changeAndTell (Ref.delete name) (.deleted name commit force) repo := by
  have hkept : ¬(active = some name ∧ force = false) := fun ⟨hactive, hforce⟩ => by
    simp [hforced hactive] at hforce
  simp [remove, see, look, hstored, hcurrent, hresolve, hkept, changeAndTell]

theorem remove_cases (repo : Repository σ) (name : String) (force : Bool) :
    (∃ error, Refuses repo.store (.remove name force) error ∧ remove name force repo = (.error error, repo)) ∨
    ∃ active commit, isStored repo.store name = true ∧ current repo.store = .ok active ∧
      (active = some name → force = true) ∧ Ref.resolve repo.store name = .ok commit ∧
      remove name force repo = changeAndTell (Ref.delete name) (.deleted name commit force) repo := by
  cases hstored : isStored repo.store name with
  | false => exact .inl ⟨_, .removeMissing hstored, by simp [remove, see, hstored]⟩
  | true =>
      cases hcurrent : current repo.store with
      | error error =>
          exact .inl ⟨error, .removeUntold hstored hcurrent, by simp [remove, see, look, hstored, hcurrent]⟩
      | ok active =>
          by_cases hkept : active = some name ∧ force = false
          · obtain ⟨rfl, rfl⟩ := hkept
            exact .inl ⟨_, .removeCurrent hstored hcurrent, by simp [remove, see, look, hstored, hcurrent]⟩
          · have hforced : active = some name → force = true := by simpa using hkept
            cases hresolve : Ref.resolve repo.store name with
            | error error =>
                refine .inl ⟨error, .removeUnread hstored hcurrent hforced hresolve, ?_⟩
                simp [remove, see, look, hstored, hcurrent, hresolve, hkept]
            | ok commit =>
                exact .inr ⟨active, commit, rfl, rfl, hforced, rfl,
                  remove_of_resolve hstored hcurrent hforced hresolve⟩

theorem rename_of_resolve {oldName newName commit : String} {active : Option String}
    (hvalid : BranchName.isValid newName = true) (hold : isStored repo.store oldName = true)
    (hnew : isStored repo.store newName = false) (hresolve : Ref.resolve repo.store oldName = .ok commit)
    (hcurrent : current repo.store = .ok active) :
    rename oldName newName repo = move oldName newName commit (active = some oldName) repo := by
  simp [rename, see, look, hvalid, hold, hnew, hresolve, hcurrent, move]

theorem rename_cases (repo : Repository σ) (oldName newName : String) :
    (∃ error, Refuses repo.store (.rename oldName newName) error ∧
      rename oldName newName repo = (.error error, repo)) ∨
    ∃ active commit, BranchName.isValid newName = true ∧ isStored repo.store oldName = true ∧
      isStored repo.store newName = false ∧ Ref.resolve repo.store oldName = .ok commit ∧
      current repo.store = .ok active ∧
      rename oldName newName repo = move oldName newName commit (active = some oldName) repo := by
  cases hvalid : BranchName.isValid newName with
  | false => exact .inl ⟨_, .renameInvalid hvalid, by simp [rename, hvalid]⟩
  | true =>
      cases hold : isStored repo.store oldName with
      | false => exact .inl ⟨_, .renameMissing hvalid hold, by simp [rename, see, hvalid, hold]⟩
      | true =>
          cases hnew : isStored repo.store newName with
          | true => exact .inl ⟨_, .renameTaken hvalid hold hnew, by simp [rename, see, hvalid, hold, hnew]⟩
          | false =>
              cases hresolve : Ref.resolve repo.store oldName with
              | error error =>
                  exact .inl ⟨error, .renameUnread hvalid hold hnew hresolve, by
                    simp [rename, see, look, hvalid, hold, hnew, hresolve]⟩
              | ok commit =>
                  cases hcurrent : current repo.store with
                  | error error =>
                      exact .inl ⟨error, .renameUntold hvalid hold hnew hresolve hcurrent, by
                        simp [rename, see, look, hvalid, hold, hnew, hresolve, hcurrent]⟩
                  | ok active =>
                      exact .inr ⟨active, commit, rfl, rfl, rfl, rfl, rfl,
                        rename_of_resolve hvalid hold hnew hresolve hcurrent⟩

end VersionControl.Branch
