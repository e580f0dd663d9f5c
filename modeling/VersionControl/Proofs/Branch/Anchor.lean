import VersionControl.Proofs.Branch.Health

/-!
# Where HEAD leads

A store is anchored when HEAD leads to a commit and so does every branch. Commands keep a store anchored as long
as none is given a blank text or forced to remove the current branch, and only a checkout moves HEAD to another
commit.
-/

namespace VersionControl.Branch

structure Anchored {σ : Type} [ObjectStore σ] (store : σ) : Prop where
  head : ∃ commit, Ref.resolve store Head.name = .ok commit
  branches : ∀ name, isStored store name = true → ∃ commit, Ref.resolve store name = .ok commit

section Head

variable {σ : Type} [ObjectStore σ] {store : σ} {branch commit : String}

/-- The current branch is there if HEAD leads to a commit. -/
theorem has_of_current (hhead : Ref.resolve store Head.name = .ok commit)
    (hcurrent : current store = .ok (some branch)) : ObjectStore.has store (Ref.key branch) = true := by
  rw [Ref.resolve_head_of_symbolic (head_of_current hcurrent)] at hhead
  exact (Ref.readPointer_eq_ok hhead).1

/-- HEAD leads into no branch that is missing. -/
theorem ne_of_current {name : String} (hhead : Ref.resolve store Head.name = .ok commit)
    (hcurrent : current store = .ok (some branch)) (hvalid : BranchName.isValid name = true)
    (hnew : isStored store name = false) : name ≠ branch := by
  rintro rfl
  rw [isStored_iff.2 ⟨hvalid, has_of_current hhead hcurrent⟩] at hnew
  cases hnew

end Head

variable {Allowed : String → Prop} {store after : MemoryStore} {name commit : String} {event : BranchEvent}
  {command : BranchCommand} {told : List BranchEvent} {repo : Repository MemoryStore}

/-! ## Branches -/

/-- What the texts of an anchored store's branches have in common. -/
def Pointing : MemoryStore → Prop :=
  Holds fun key content => ∀ name, BranchName.isValid name = true → key = Ref.key name → IsPointer content

theorem pointing_iff :
    Pointing store ↔ ∀ name, isStored store name = true → ∃ commit, Ref.resolve store name = .ok commit := by
  constructor
  · intro h name hstored
    obtain ⟨hvalid, hhas⟩ := isStored_iff.1 hstored
    obtain ⟨content, hget⟩ := MemoryStore.has_iff.1 hhas
    rw [Ref.resolve_of_ne_head (BranchName.ne_head hvalid)]
    exact ⟨_, Ref.readPointer_of_read hhas (MemoryStore.read_of_get? hget) (h _ content hget name hvalid rfl)⟩
  · rintro h _ content hget name hvalid rfl hblank
    obtain ⟨hstored, error, herror⟩ := isBlank_of_get? hvalid hget hblank
    obtain ⟨commit, hresolve⟩ := h name hstored
    rw [herror] at hresolve
    cases hresolve

theorem pointing_of_occurs (h : Occurs IsPointer store event after) (hstore : Pointing store) : Pointing after := by
  refine holds_of_steps (steps_of_occurs (fun _ htrimmed => htrimmed.isPointer) h) hstore ?_ ?_
  · intro name commit _ hcommit _ _ _
    rwa [IsPointer, Ref.trimPointer_newline]
  · intro name _ _ _
    exact Ref.trimPointer_encode_ne_empty name

/-! ## Events and HEAD -/

theorem resolve_head_congr (hhead : after.objects.get? Head.name = store.objects.get? Head.name)
    (hbranch : ∀ branch, current store = .ok (some branch) →
      after.objects.get? (Ref.key branch) = store.objects.get? (Ref.key branch)) :
    Ref.resolve after Head.name = Ref.resolve store Head.name :=
  Ref.resolve_head_of_get?_eq hhead fun branch hsymbolic => hbranch branch (current_of_symbolic hsymbolic)

theorem resolve_head_of_enter (hvalid : BranchName.isValid name = true) :
    Ref.resolve (enter name store) Head.name = Ref.resolve store name := by
  rw [Ref.resolve_head_of_symbolic (head_of_enter hvalid), Ref.resolve_of_ne_head (BranchName.ne_head hvalid)]
  refine Ref.readPointer_of_get?_eq name ?_
  rw [get?_enter, if_neg (Ref.key_ne_head name).symm]

theorem resolve_point (hvalid : BranchName.isValid name = true) (hcommit : IsTrimmed commit) :
    Ref.resolve (point name commit store) name = .ok commit := by
  have htrim : Ref.trimPointer (commit ++ "\n") = commit := (Ref.trimPointer_newline commit).trans hcommit.1
  rw [Ref.resolve_of_ne_head (BranchName.ne_head hvalid)]
  exact Ref.readPointer_eq_ok_iff.2 ⟨by simp [htrim], hcommit.2⟩

/-- A branch that changes its name takes HEAD along. -/
theorem resolve_head_of_moveTo {oldName newName : String} (hvalid : BranchName.isValid newName = true)
    (hne : oldName ≠ newName) (hcommit : IsTrimmed commit) :
    Ref.resolve (moveTo oldName newName commit true store) Head.name = .ok commit := by
  have hmoved : moveTo oldName newName commit true store =
      enter newName (drop oldName (point newName commit store)) := rfl
  have hkept : (drop oldName (point newName commit store)).objects.get? (Ref.key newName) =
      (point newName commit store).objects.get? (Ref.key newName) := by
    simp [hne]
  rw [hmoved, resolve_head_of_enter hvalid, Ref.resolve_of_get?_eq (BranchName.ne_head hvalid) hkept,
    resolve_point hvalid hcommit]

/-- A branch changes its name and HEAD leads where it led, unless it waits for a branch of the new name. -/
theorem Occurs.resolve_head_of_renamed {oldName newName : String} {wasCurrent : Bool}
    (h : Occurs Allowed store (.renamed oldName newName wasCurrent) after)
    (hother : current store ≠ .ok (some newName)) :
    Ref.resolve after Head.name = Ref.resolve store Head.name := by
  cases h with
  | @renamed _ _ moved active hvalid hold hnew hresolve hactive =>
      have hnames := ne_of_isStored hold hnew
      by_cases hcurrent : active = some oldName
      · have hsame : Ref.resolve store Head.name = .ok moved := by
          rw [Ref.resolve_head_of_symbolic (head_of_current (hcurrent ▸ hactive)), ← hresolve,
            Ref.resolve_of_ne_head (BranchName.ne_head (isStored_iff.1 hold).1)]
        rw [decide_eq_true hcurrent, hsame]
        exact resolve_head_of_moveTo hvalid hnames (Ref.trimPointer_of_resolve hresolve)
      · refine resolve_head_congr ?_ fun branch hbranch => ?_
        · simp [hcurrent, Ref.key_ne_head]
        · have hleft : oldName ≠ branch := fun heq => hcurrent (by
            cases hactive.symm.trans hbranch
            rw [heq])
          have hentered : newName ≠ branch := fun heq => hother (heq ▸ hbranch)
          simp [hcurrent, hleft, hentered]

/-- HEAD leads where it led unless it enters another branch or its own is deleted. -/
theorem Occurs.resolve_head (h : Occurs Allowed store event after)
    (hhead : Ref.resolve store Head.name = .ok commit)
    (hspared : ∀ name commit, event = .deleted name commit true → current store ≠ .ok (some name)) :
    (∃ name previous, event = .checkedOut name previous) ∨
      Ref.resolve after Head.name = Ref.resolve store Head.name := by
  -- a symbolic HEAD leads on through its branch, so that both keys have to be as they were
  cases h with
  | checkedOut => exact .inl ⟨_, _, rfl⟩
  | @created name base hvalid hnew =>
      refine .inr (resolve_head_congr ?_ fun branch hcurrent => ?_)
      · rw [get?_point, if_neg (Ref.key_ne_head name)]
      · simp [ne_of_current hhead hcurrent hvalid hnew]
  | @deleted name _ active forced hvalid hresolve hactive hforced =>
      refine .inr (resolve_head_congr ?_ fun branch hcurrent => ?_)
      · rw [get?_drop, if_neg (Ref.key_ne_head name)]
      · have hne : name ≠ branch := fun heq => by
          subst heq
          cases hactive.symm.trans hcurrent
          rw [hforced rfl] at hspared
          exact hspared name _ rfl hcurrent
        simp [hne]
  | @renamed oldName newName moved active hvalid hold hnew hresolve hactive =>
      have hrenamed : Occurs Allowed store (.renamed oldName newName (active = some oldName)) _ :=
        .renamed hvalid hold hnew hresolve hactive
      exact .inr (hrenamed.resolve_head_of_renamed fun hcurrent => ne_of_current hhead hcurrent hvalid hnew rfl)

theorem Occurs.anchored (h : Occurs IsPointer store event after) (hstore : Anchored store)
    (hspared : ∀ name commit, event = .deleted name commit true → current store ≠ .ok (some name)) :
    Anchored after := by
  have hbranches := pointing_iff.1 (pointing_of_occurs h (pointing_iff.2 hstore.branches))
  obtain ⟨commit, hhead⟩ := hstore.head
  refine ⟨?_, hbranches⟩
  rcases h.resolve_head hhead hspared with ⟨name, previous, rfl⟩ | hsame
  · cases h with
    | checkedOut hstored =>
        obtain ⟨commit, hresolve⟩ := hstore.branches name hstored
        exact ⟨commit, (resolve_head_of_enter (isStored_iff.1 hstored).1).trans hresolve⟩
  · exact ⟨commit, hsame.trans hhead⟩

theorem Occurs.get?_of_foreign {key : String} (h : Occurs Allowed store event after) (hhead : key ≠ Head.name)
    (hkey : ∀ name, BranchName.isValid name = true → key ≠ Ref.key name) :
    after.objects.get? key = store.objects.get? key := by
  cases h with
  | created hvalid => rw [get?_point, if_neg (hkey _ hvalid).symm]
  | deleted hvalid => rw [get?_drop, if_neg (hkey _ hvalid).symm]
  | checkedOut => rw [get?_enter, if_neg hhead.symm]
  | renamed hvalid hold =>
      have holdKey := hkey _ (isStored_iff.1 hold).1
      simp [hhead.symm, holdKey.symm, (hkey _ hvalid).symm]

/-! ## Commands and HEAD -/

/-- What a command does to an anchored store: it stays anchored, HEAD moves to another commit only by a checkout that
succeeds, and what is neither HEAD nor a branch is left alone. -/
structure KeepsAnchor (command : BranchCommand) (repo : Repository MemoryStore) : Prop where
  anchored : Anchored (command.operation repo).2.store
  head : Ref.resolve (command.operation repo).2.store Head.name ≠ Ref.resolve repo.store Head.name →
    (∃ name createMissing, command = .checkout name createMissing) ∧ (command.operation repo).1 = .ok ()
  others : ∀ key, key ≠ Head.name → (∀ name, BranchName.isValid name = true → key ≠ Ref.key name) →
    (command.operation repo).2.store.objects.get? key = repo.store.objects.get? key

theorem keepsAnchor_of_refused {error : Error} (h : command.operation repo = (.error error, repo))
    (hstore : Anchored repo.store) : KeepsAnchor command repo := by
  refine ⟨?_, fun hmoved => ?_, fun _ _ _ => ?_⟩
  · rwa [h]
  · rw [h] at hmoved
    exact absurd rfl hmoved
  · rw [h]

theorem keepsAnchor_of_occurs (h : Occurs IsPointer repo.store event after)
    (hdone : command.operation repo = (.ok (), ⟨after, repo.published ++ told⟩)) (hstore : Anchored repo.store)
    (hspared : ∀ name commit, event = .deleted name commit true → current repo.store ≠ .ok (some name))
    (hcheckout : ∀ name previous, event = .checkedOut name previous →
      ∃ name createMissing, command = .checkout name createMissing) : KeepsAnchor command repo := by
  refine ⟨?_, fun hmoved => ?_, fun key hhead hkey => ?_⟩
  · rw [hdone]
    exact h.anchored hstore hspared
  · rw [hdone] at hmoved ⊢
    obtain ⟨commit, hhead⟩ := hstore.head
    rcases h.resolve_head hhead hspared with ⟨name, previous, hevent⟩ | hsame
    · exact ⟨hcheckout name previous hevent, rfl⟩
    · exact absurd hsame hmoved
  · rw [hdone]
    exact h.get?_of_foreign hhead hkey

theorem keepsAnchor (command : BranchCommand) (hstore : Anchored repo.store)
    (hbase : ∀ name base, command = .create name (some base) → IsPointer base)
    (hspared : ∀ name, command = .remove name true → current repo.store ≠ .ok (some name)) :
    KeepsAnchor command repo := by
  rcases operation_cases repo command (fun _ h => h.isPointer) (fun name base h _ => hbase name base h) with
    ⟨error, hrefused⟩ | ⟨told, after, hdone, heffect⟩
  · exact keepsAnchor_of_refused hrefused hstore
  · cases heffect with
    | create h => exact keepsAnchor_of_occurs h hdone hstore (by simp) (by simp)
    | checkout h => exact keepsAnchor_of_occurs h hdone hstore (by simp) fun _ _ _ => ⟨_, _, rfl⟩
    | remove h =>
        refine keepsAnchor_of_occurs h hdone hstore (fun name commit hevent => ?_) (by simp)
        cases hevent
        exact hspared _ rfl
    | rename h => exact keepsAnchor_of_occurs h hdone hstore (by simp) (by simp)
    | checkoutNew hcreated h =>
        have hmiddle := hcreated.anchored hstore (by simp)
        refine ⟨?_, fun _ => ?_, fun key hhead hkey => ?_⟩
        · rw [hdone]
          exact h.anchored hmiddle (by simp)
        · rw [hdone]
          exact ⟨⟨_, _, rfl⟩, rfl⟩
        · rw [hdone]
          exact (h.get?_of_foreign hhead hkey).trans (hcreated.get?_of_foreign hhead hkey)

/-- Every command of a run keeps the store anchored if no branch is created at a blank text and the current branch is
never deleted. -/
theorem keepsAnchor_run (commands : List BranchCommand) (hstore : Anchored repo.store)
    (hbases : ∀ name base, .create name (some base) ∈ commands →
      ∃ c ∈ base.toList, Ref.isTrailingBlank c = false)
    (hspared : ∀ before name rest, commands = before ++ .remove name true :: rest →
      current (BranchCommand.run before repo).store ≠ .ok (some name)) :
    ∀ before command rest, commands = before ++ command :: rest →
      KeepsAnchor command (BranchCommand.run before repo) := by
  induction commands generalizing repo with
  | nil => simp
  | cons first others ih =>
      have hfirst : KeepsAnchor first repo := by
        refine keepsAnchor first hstore (fun name base heq => ?_) fun name heq => ?_
        · subst heq
          exact isPointer_iff.2 (hbases name base List.mem_cons_self)
        · subst heq
          exact hspared [] name others rfl
      rintro (_ | ⟨_, before⟩) command rest heq
      · cases heq
        exact hfirst
      · cases heq
        refine ih hfirst.anchored (fun name base hmem => ?_) (fun before name rest heq => ?_) before command rest rfl
        · exact hbases name base (List.mem_cons_of_mem _ hmem)
        · rw [heq] at hspared
          exact hspared (first :: before) name rest rfl

/-- HEAD is in `main`, beside which there is another branch. -/
def mainAndDev : Repository MemoryStore :=
  { store := ⟨.ofList [("HEAD", "ref: main\n"), ("refs/heads/dev", "c2\n"), ("refs/heads/main", "c1\n")]⟩ }

theorem anchored_mainAndDev : Anchored mainAndDev.store where
  head := ⟨"c1", by decide +kernel⟩
  branches := pointing_iff.1 fun key content hget _ _ _ => by
    have hpointers : ∀ entry ∈ mainAndDev.store.objects.entries, Ref.trimPointer entry.2 ≠ "" := by decide +kernel
    exact hpointers (key, content) (Dict.get?_eq_some_iff.1 hget)

/-- The current branch changes its name, cannot be deleted unless forced, and outlives the deletion of the other. -/
theorem keepsAnchor_run_of_forced_deletion : KeepsAnchor (.remove "dev" true) (BranchCommand.run
    [.create "fix" (some "c3 "), .rename "main" "trunk", .remove "trunk" false] mainAndDev) := by
  refine keepsAnchor_run
    [.create "fix" (some "c3 "), .rename "main" "trunk", .remove "trunk" false, .remove "dev" true]
    anchored_mainAndDev (fun name base hmem => ?_) ?_ [_, _, _] (.remove "dev" true) [] rfl
  · obtain ⟨rfl, rfl⟩ : name = "fix" ∧ base = "c3 " := by simpa using hmem
    exact ⟨'c', by decide, by decide⟩
  · rintro (_ | ⟨_, _ | ⟨_, _ | ⟨_, _ | ⟨_, before⟩⟩⟩⟩) name rest heq <;> simp at heq
    obtain ⟨rfl, rfl, rfl, rfl, -⟩ := heq
    decide +kernel

end VersionControl.Branch
