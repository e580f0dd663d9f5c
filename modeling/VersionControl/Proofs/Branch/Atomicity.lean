import VersionControl.Proofs.Branch.Operations
import VersionControl.Proofs.Store.Backend

/-!
# Operations that fail

An operation that changes more than one key has no way to fail once its first change is stored: what the
later changes need was looked at before, and the first change has not touched it. The one thing that no
operation looks at is where the staging file of HEAD goes, and a directory there does stop it halfway.
-/

namespace VersionControl.Branch

open ObjectStore (SameContent ChangesOnly)
open LawfulStore (Sound Stages)

variable {σ : Type} [ObjectStore σ] {repo after : Repository σ} {name key : String} {error : Error}
  {op : Operation σ Unit}

theorem readPointer_of_changesOnly {store changed : σ} {other pointer : String}
    (honly : ChangesOnly key store changed) (hother : Key.IsPlain other) (hne : other ≠ key)
    (h : Ref.readPointer store other name = .ok pointer) :
    Ref.readPointer changed other name = .ok pointer := by
  rw [← h]
  exact Ref.readPointer_congr (honly.has hother hne) (honly.read hother hne)

variable [LawfulStore σ] {store last : σ} {answer : Except Error Unit} {data : String}

/-- A sound store in which nothing stands in the way of a write of HEAD. -/
structure Ready (store : σ) : Prop where
  sound : Sound store
  stages : Stages store Head.name

theorem Ready.of_write (h : Ready store) (hkey : Key.IsPlain key)
    (hwrite : ObjectStore.write key data store = (answer, last)) (hsound : Sound last) : Ready last where
  sound := hsound
  stages := by simpa [hwrite] using LawfulStore.stages_write h.sound hkey data h.stages

theorem Ready.of_remove (h : Ready store) (hkey : Key.IsPlain key) (hstored : ObjectStore.has store key = true)
    (hremove : ObjectStore.remove key store = (answer, last)) (hsound : Sound last) : Ready last where
  sound := hsound
  stages := by simpa [hremove] using LawfulStore.stages_remove h.sound hkey hstored h.stages

/-- An operation that leaves a ready store, and one with the same objects and events if it fails. -/
structure IsAtomic (op : Operation σ Unit) (repo : Repository σ) : Prop where
  ready : Ready (op repo).2.store
  content : ∀ {error}, (op repo).1 = .error error → SameContent (op repo).2.store repo.store
  published : ∀ {error}, (op repo).1 = .error error → (op repo).2.published = repo.published

theorem isAtomic_of_ok (hok : op repo = (.ok (), after)) (hready : Ready after.store) : IsAtomic op repo where
  ready := by rwa [hok]
  content hfail := by
    rw [hok] at hfail
    cases hfail
  published hfail := by
    rw [hok] at hfail
    cases hfail

theorem isAtomic_of_error (hfail : op repo = (.error error, { repo with store }))
    (hready : Ready store) (hsame : SameContent store repo.store) : IsAtomic op repo where
  ready := by rwa [hfail]
  content _ := by rwa [hfail]
  published _ := by rw [hfail]

theorem isAtomic_of_refused (hrefused : op repo = (.error error, repo)) (hready : Ready repo.store) :
    IsAtomic op repo :=
  isAtomic_of_error hrefused hready (SameContent.refl repo.store)

theorem isAtomic_congr {other : Operation σ Unit} (heq : op repo = other repo) (h : IsAtomic other repo) :
    IsAtomic op repo where
  ready := by
    rw [heq]
    exact h.ready
  content hfail := by
    rw [heq] at hfail ⊢
    exact h.content hfail
  published hfail := by
    rw [heq] at hfail ⊢
    exact h.published hfail

/-! ## Single changes -/

theorem isAtomic_write (h : Ready repo.store) (hkey : Key.IsPlain key) (data : String) (event : BranchEvent) :
    IsAtomic (changeAndTell (ObjectStore.write key data) event) repo := by
  rcases LawfulStore.write_cases h.sound hkey data with
    ⟨_, store, hwrite, hsound, hsame, -⟩ | ⟨store, hwrite, hsound, -⟩
  · exact isAtomic_of_error (changeAndTell_of_error hwrite) (h.of_write hkey hwrite hsound) hsame
  · exact isAtomic_of_ok (changeAndTell_of_ok hwrite) (h.of_write hkey hwrite hsound)

theorem isAtomic_create (h : Ready repo.store) (name : String) (base : Option String) :
    IsAtomic (create name base) repo := by
  rcases create_cases repo name base with ⟨_, -, hrefused⟩ | ⟨commit, hvalid, -, -, hcreate⟩
  · exact isAtomic_of_refused hrefused h
  · rw [Ref.update_of_ne_head (BranchName.ne_head hvalid)] at hcreate
    exact isAtomic_congr hcreate (isAtomic_write h (Ref.isPlain_key hvalid) _ _)

theorem isAtomic_switchTo (h : Ready repo.store) (name : String) : IsAtomic (switchTo name) repo := by
  rcases switchTo_cases repo name with ⟨_, -, hrefused⟩ | ⟨previous, -, hswitch⟩
  · exact isAtomic_of_refused hrefused h
  · exact isAtomic_congr hswitch (isAtomic_write h Ref.isPlain_head _ _)

theorem isAtomic_remove (h : Ready repo.store) (name : String) (force : Bool) :
    IsAtomic (remove name force) repo := by
  rcases remove_cases repo name force with ⟨_, -, hrefused⟩ | ⟨active, commit, hstored, -, -, -, hremove⟩
  · exact isAtomic_of_refused hrefused h
  · obtain ⟨hvalid, hhas⟩ := isStored_iff.1 hstored
    have hkey := Ref.isPlain_key hvalid
    obtain ⟨store, hgone, hsound, -⟩ := LawfulStore.remove_of_has h.sound hkey hhas
    have hready := h.of_remove hkey hhas hgone hsound
    rw [← Ref.delete_of_has hhas] at hgone
    exact isAtomic_of_ok (hremove.trans (changeAndTell_of_ok hgone)) hready

/-! ## Several changes -/

/-- Nothing can stop a checkout whose branch was just created: HEAD was read for it. -/
theorem switchTo_of_create (h : Ready repo.store) (hcreate : create name none repo = (.ok (), after)) :
    ∃ last, switchTo name after = (.ok (), last) := by
  rcases create_cases repo name none with ⟨_, -, hrefused⟩ | ⟨commit, hvalid, -, hbase, hchange⟩
  · rw [hrefused] at hcreate
    cases hcreate
  · obtain ⟨pointer, hpointer⟩ := Ref.readPointer_of_resolve_head hbase
    have hkey := Ref.isPlain_key hvalid
    rw [Ref.update_of_ne_head (BranchName.ne_head hvalid)] at hchange
    rcases LawfulStore.write_cases h.sound hkey (commit ++ "\n") with
      ⟨_, _, hwrite, -⟩ | ⟨written, hwrite, hsound, honly, -⟩
    · rw [hchange, changeAndTell_of_error hwrite] at hcreate
      cases hcreate
    · rw [hchange, changeAndTell_of_ok hwrite] at hcreate
      cases hcreate
      have hhead := readPointer_of_changesOnly honly Ref.isPlain_head (Ref.key_ne_head name).symm hpointer
      obtain ⟨previous, hcurrent⟩ := current_of_readPointer hhead
      obtain ⟨store, hset, -⟩ := LawfulStore.write_of_has hsound Ref.isPlain_head
        (h.of_write hkey hwrite hsound).stages (Ref.readPointer_eq_ok hhead).1 (Head.symbolic name).encode
      exact ⟨_, (switchTo_of_current hcurrent).trans (changeAndTell_of_ok hset)⟩

theorem isAtomic_checkout (h : Ready repo.store) (name : String) (createMissing : Bool) :
    IsAtomic (checkout name createMissing) repo := by
  rw [checkout_eq]
  rcases require_cases repo name createMissing with
    ⟨-, hrequire⟩ | ⟨-, -, hrequire⟩ | ⟨-, -, hrequire⟩
  · exact isAtomic_congr (by rw [Transition.bind_apply, hrequire]; rfl) (isAtomic_switchTo h name)
  · exact isAtomic_of_refused (by rw [Transition.bind_apply, hrequire]; rfl) h
  · have hatomic := isAtomic_create h name none
    cases hcreate : create name none repo with
    | mk answer after =>
        cases answer with
        | error error =>
            refine isAtomic_congr ?_ hatomic
            rw [Transition.bind_apply, hrequire, hcreate]
            rfl
        | ok _ =>
            obtain ⟨last, hswitch⟩ := switchTo_of_create h hcreate
            have hcreated : Ready after.store := by simpa [hcreate] using hatomic.ready
            have hready : Ready last.store := by simpa [hswitch] using (isAtomic_switchTo hcreated name).ready
            refine isAtomic_of_ok ?_ hready
            rw [Transition.bind_apply, hrequire, hcreate]
            exact hswitch

theorem move_of_written {oldName newName commit : String} {active : Option String} {written : σ}
    (h : Ready written) (honly : ChangesOnly (Ref.key newName) repo.store written)
    (hcurrent : current repo.store = .ok active) (hold : isStored repo.store oldName = true)
    (hne : oldName ≠ newName) (hwrite : Ref.update newName commit repo.store = (.ok (), written)) :
    ∃ last, move oldName newName commit (active = some oldName) repo = (.ok (), last) ∧ Ready last.store := by
  obtain ⟨hvalid, hhas⟩ := isStored_iff.1 hold
  have hkey := Ref.isPlain_key hvalid
  have hstill : ObjectStore.has written (Ref.key oldName) = true := by
    rwa [honly.has hkey fun heq => hne (Ref.key_injective heq)]
  obtain ⟨moved, hdelete, hsound, hdropped, -⟩ := LawfulStore.remove_of_has h.sound hkey hstill
  have hready : Ready moved := h.of_remove hkey hstill hdelete hsound
  rw [← Ref.delete_of_has hstill] at hdelete
  by_cases hactive : active = some oldName
  · have hhead : ObjectStore.has moved Head.name = true := by
      rw [hdropped.has Ref.isPlain_head (Ref.key_ne_head oldName).symm,
        honly.has Ref.isPlain_head (Ref.key_ne_head newName).symm]
      exact has_head_of_current (hactive ▸ hcurrent)
    obtain ⟨followed, hset, hfollowed, -⟩ := LawfulStore.write_of_has hready.sound Ref.isPlain_head
      hready.stages hhead (Head.symbolic newName).encode
    rw [decide_eq_true hactive]
    exact ⟨_, move_of_current hwrite hdelete hset, hready.of_write Ref.isPlain_head hset hfollowed⟩
  · rw [decide_eq_false hactive]
    exact ⟨_, move_of_not_current hwrite hdelete, hready⟩

theorem isAtomic_rename (h : Ready repo.store) (oldName newName : String) :
    IsAtomic (rename oldName newName) repo := by
  rcases rename_cases repo oldName newName with
    ⟨_, -, hrefused⟩ | ⟨active, commit, hvalid, hold, hnew, -, hcurrent, hrename⟩
  · exact isAtomic_of_refused hrefused h
  · have hne : oldName ≠ newName := fun heq => by simp [heq, hnew] at hold
    have hkey := Ref.isPlain_key hvalid
    refine isAtomic_congr hrename ?_
    rcases LawfulStore.write_cases h.sound hkey (commit ++ "\n") with
      ⟨_, store, hwrite, hsound, hsame, -⟩ | ⟨written, hwrite, hsound, honly, -⟩
    · have hready : Ready store := h.of_write hkey hwrite hsound
      rw [← Ref.update_of_ne_head (BranchName.ne_head hvalid)] at hwrite
      exact isAtomic_of_error (move_of_error hwrite) hready hsame
    · have hready : Ready written := h.of_write hkey hwrite hsound
      rw [← Ref.update_of_ne_head (BranchName.ne_head hvalid)] at hwrite
      obtain ⟨last, hmove, hlast⟩ := move_of_written hready honly hcurrent hold hne hwrite
      exact isAtomic_of_ok hmove hlast

/-! ## Any command -/

theorem isAtomic_operation (h : Ready repo.store) (command : BranchCommand) :
    IsAtomic command.operation repo := by
  cases command with
  | create name base => exact isAtomic_create h name base
  | checkout name createMissing => exact isAtomic_checkout h name createMissing
  | remove name force => exact isAtomic_remove h name force
  | rename oldName newName => exact isAtomic_rename h oldName newName

/-- No command takes the ground from under the next one. -/
theorem ready_run (commands : List BranchCommand) (h : Ready repo.store) :
    Ready (BranchCommand.run commands repo).store := by
  induction commands generalizing repo with
  | nil => exact h
  | cons command rest ih => exact ih (isAtomic_operation h command).ready

/-- A command that fails changes nothing, in memory or on a disk without a directory under a staging name of
HEAD: every object is as it was, and no event tells of the command. -/
theorem unchanged_of_error {repo : Repository Backend} (hsound : repo.store.IsSound)
    (hstages : repo.store.Stages Head.name) (command : BranchCommand) {error : Error}
    (hfail : (command.operation repo).1 = .error error) :
    SameContent (command.operation repo).2.store repo.store ∧
      (command.operation repo).2.published = repo.published :=
  have hatomic := isAtomic_operation ⟨hsound, hstages⟩ command
  ⟨hatomic.content hfail, hatomic.published hfail⟩

/-- A disk that holds the branch `main` and nothing else. -/
def mainOnDisk : Repository Backend :=
  { store := (ObjectStore.write (Ref.key "main") "c\n" (Backend.onFreshDisk "store")).2 }

theorem ready_mainOnDisk : Ready mainOnDisk.store := by
  have hname : BranchName.isValid "main" = true := by decide
  have hfresh : Ready (Backend.onFreshDisk "store") :=
    ⟨Backend.isSound_onFreshDisk "store", Backend.stages_onFreshDisk "store" Head.name⟩
  have hkey := Ref.isPlain_key hname
  exact hfresh.of_write hkey rfl (LawfulStore.sound_write hfresh.sound hkey "c\n")

/-- The file of a branch keeps the branch from moving below itself. -/
theorem unchanged_of_rename_below_itself :
    ((BranchCommand.rename "main" "main/x").operation mainOnDisk).1 =
        .error (.storage (.cannotOpen "store/refs/heads/main/x.1.tmp~")) ∧
      SameContent ((BranchCommand.rename "main" "main/x").operation mainOnDisk).2.store mainOnDisk.store ∧
      ((BranchCommand.rename "main" "main/x").operation mainOnDisk).2.published = mainOnDisk.published := by
  have hfail : ((BranchCommand.rename "main" "main/x").operation mainOnDisk).1 =
      .error (.storage (.cannotOpen "store/refs/heads/main/x.1.tmp~")) := by decide +kernel
  exact ⟨hfail, unchanged_of_error ready_mainOnDisk.sound ready_mainOnDisk.stages
    (.rename "main" "main/x") hfail⟩

/-- A disk with `main` checked out, and a directory where the second staging file is to be when HEAD is
written. -/
def headBlocked : Repository Backend :=
  { store := .directory {
      rootPath := "store"
      tree := {
        limits := .unlimited
        nodes := Dict.empty
          |>.insert "HEAD" (.file "ref: main\n")
          |>.insert "HEAD.1.tmp~" .directory
          |>.insert "refs" .directory
          |>.insert "refs/heads" .directory
          |>.insert "refs/heads/main" (.file "c\n") } } }

/-- Where a directory takes the place of HEAD's staging file, a rename fails when the branch has moved already,
and a checkout when it has created and published its branch. -/
theorem not_unchanged_of_staging_directory :
    headBlocked.store.IsSound ∧
      ((BranchCommand.rename "main" "dev").operation headBlocked).1 =
        .error (.storage (.cannotOpen "store/HEAD.1.tmp~")) ∧
      ¬SameContent ((BranchCommand.rename "main" "dev").operation headBlocked).2.store headBlocked.store ∧
      ((BranchCommand.checkout "dev" true).operation headBlocked).1 =
        .error (.storage (.cannotOpen "store/HEAD.1.tmp~")) ∧
      ((BranchCommand.checkout "dev" true).operation headBlocked).2.published = [.created "dev" "c"] := by
  have hsound : headBlocked.store.IsSound :=
    .directory (.of_entries rfl rfl (by decide +kernel) (by decide +kernel))
  have hmoved : ObjectStore.keys ((BranchCommand.rename "main" "dev").operation headBlocked).2.store "" =
      .ok ["HEAD", "refs/heads/dev"] := by decide +kernel
  have hbefore : ObjectStore.keys headBlocked.store "" = .ok ["HEAD", "refs/heads/main"] := by decide +kernel
  refine ⟨hsound, by decide +kernel, fun hsame => ?_, by decide +kernel, by decide +kernel⟩
  have hkeys := hsame.keys ""
  rw [hmoved, hbefore] at hkeys
  exact absurd hkeys (by decide)

end VersionControl.Branch
