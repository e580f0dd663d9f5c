import VersionControl.Proofs.Branch.Health
import VersionControl.Proofs.Ref.Resolution

/-!
# When commands succeed

In a store in memory that can be read, a command succeeds exactly if nothing stands in its way, and otherwise it reports
the first thing that does. Neither a write nor a reading that comes later can fail there.
-/

namespace VersionControl.Branch

variable {repo : Repository MemoryStore} {store : MemoryStore} {command : BranchCommand} {error : Error}
  {name base commit : String}

def Resolves (store : MemoryStore) (name : String) : Prop := ∃ commit, Ref.resolve store name = .ok commit

/-- It can be told which branch is current, if any, and every branch resolves. -/
structure Legible (store : MemoryStore) : Prop where
  told : ∃ active, current store = .ok active
  branches : ∀ name, isStored store name = true → Resolves store name

theorem Readable.legible (h : Readable store) : Legible store := ⟨h.current, fun _ => h.resolve⟩

/-! ## What stands in the way -/

/-- An error and when it is due. -/
structure Obstacle where
  error : Error
  stands : Prop

/-- The error of the first obstacle that stands. -/
inductive Stops : List Obstacle → Error → Prop
  | here {obstacle : Obstacle} {rest : List Obstacle} : obstacle.stands → Stops (obstacle :: rest) obstacle.error
  | later {obstacle : Obstacle} {rest : List Obstacle} {error : Error} : ¬ obstacle.stands → Stops rest error →
      Stops (obstacle :: rest) error

/-- The ref that is missing when a name does not resolve: the name itself, or the branch that HEAD names. -/
def missingRef (store : MemoryStore) (name : String) : String :=
  match current store with
  | .ok (some branch) => if name = Head.name then branch else name
  | _ => name

/-- What can stand in the way of a command, in the order in which it is reported. -/
def obstacles (store : MemoryStore) : BranchCommand → List Obstacle
  | .create name none => [
      ⟨.invalidBranchName, BranchName.isValid name = false⟩,
      ⟨.branchAlreadyExists, isStored store name = true⟩,
      ⟨.refNotFound (missingRef store Head.name), ¬ Resolves store Head.name⟩]
  | .create name (some base) => [
      ⟨.invalidBranchName, BranchName.isValid name = false⟩,
      ⟨.branchAlreadyExists, isStored store name = true⟩,
      ⟨.refNotFound (missingRef store base),
        (base = Head.name ∨ Ref.isStored store base = true) ∧ ¬ Resolves store base⟩]
  | .checkout name false => [
      ⟨.branchNotFound, isStored store name = false⟩]
  | .checkout name true => [
      ⟨.invalidBranchName, isStored store name = false ∧ BranchName.isValid name = false⟩,
      ⟨.refNotFound (missingRef store Head.name), isStored store name = false ∧ ¬ Resolves store Head.name⟩]
  | .remove name force => [
      ⟨.branchNotFound, isStored store name = false⟩,
      ⟨.cannotDeleteCurrentBranch, current store = .ok (some name) ∧ force = false⟩]
  | .rename oldName newName => [
      ⟨.invalidBranchName, BranchName.isValid newName = false⟩,
      ⟨.branchNotFound, isStored store oldName = false⟩,
      ⟨.branchAlreadyExists, isStored store newName = true⟩]

/-- What a command needs. -/
def Feasible (store : MemoryStore) : BranchCommand → Prop
  | .create name none =>
      BranchName.isValid name = true ∧ isStored store name = false ∧ Resolves store Head.name
  | .create name (some base) =>
      BranchName.isValid name = true ∧ isStored store name = false ∧
        (base = Head.name ∨ Ref.isStored store base = true → Resolves store base)
  | .checkout name createMissing =>
      isStored store name = true ∨
        createMissing = true ∧ BranchName.isValid name = true ∧ Resolves store Head.name
  | .remove name force =>
      isStored store name = true ∧ (force = true ∨ current store ≠ .ok (some name))
  | .rename oldName newName =>
      BranchName.isValid newName = true ∧ isStored store oldName = true ∧ isStored store newName = false

theorem Stops.exists_stands {obstacles : List Obstacle} (h : Stops obstacles error) :
    ∃ obstacle ∈ obstacles, obstacle.stands := by
  induction h with
  | here hstands => exact ⟨_, List.mem_cons_self, hstands⟩
  | later _ _ ih =>
      obtain ⟨obstacle, hmem, hstands⟩ := ih
      exact ⟨obstacle, List.mem_cons_of_mem _ hmem, hstands⟩

theorem Stops.unique {obstacles : List Obstacle} {other : Error} (h : Stops obstacles error)
    (hother : Stops obstacles other) : error = other := by
  induction h with
  | here hstands =>
      cases hother with
      | here => rfl
      | later hnot => exact absurd hstands hnot
  | later hnot _ ih =>
      cases hother with
      | here hstands => exact absurd hstands hnot
      | later _ hother => exact ih hother

theorem feasible_iff : Feasible store command ↔ ∀ obstacle ∈ obstacles store command, ¬ obstacle.stands := by
  cases command with
  | create name base => cases base <;> simp [Feasible, obstacles]
  | checkout name createMissing =>
      cases hstored : isStored store name <;> cases createMissing <;> simp [Feasible, obstacles, hstored]
  | remove name force => cases force <;> simp [Feasible, obstacles]
  | rename oldName newName => simp [Feasible, obstacles]

theorem Stops.not_feasible (h : Stops (obstacles store command) error) : ¬ Feasible store command := by
  obtain ⟨obstacle, hmem, hstands⟩ := h.exists_stands
  exact fun hfeasible => feasible_iff.1 hfeasible obstacle hmem hstands

/-! ## Names that do not resolve -/

theorem missingRef_of_ne_head (h : name ≠ Head.name) : missingRef store name = name := by
  unfold missingRef
  split
  · exact if_neg h
  · rfl

theorem missingRef_of_symbolic {branch : String} (h : Ref.head store = .ok (.symbolic branch)) :
    missingRef store Head.name = branch := by
  rw [missingRef, current_of_symbolic h]
  exact if_pos rfl

theorem missingRef_of_head_error (h : Ref.head store = .error error) : missingRef store Head.name = Head.name := by
  unfold missingRef
  split
  case h_1 branch hcurrent => cases h.symm.trans (head_of_current hcurrent)
  case h_2 => rfl

/-- Whatever is stored, the only reason for a name not to resolve is that a ref on its way is missing. -/
theorem resolve_eq_error (h : Ref.resolve store name = .error error) :
    error = .refNotFound (missingRef store name) := by
  by_cases hname : name = Head.name
  · subst hname
    rcases Ref.head_cases store with ⟨content, -, -, hhead⟩ | ⟨-, hhead⟩
    · cases hpointer : Head.ofPointer (Ref.trimPointer content) with
      | detached hash =>
          rw [hpointer] at hhead
          cases h.symm.trans (Ref.resolve_head_of_detached hhead)
      | symbolic branch =>
          rw [hpointer] at hhead
          rw [Ref.resolve_head_of_symbolic hhead] at h
          rcases Ref.readPointer_cases store (.branch branch) with ⟨_, -, -, hread⟩ | ⟨-, hread⟩
          · cases h.symm.trans hread
          · cases h.symm.trans hread
            rw [missingRef_of_symbolic hhead]
            rfl
    · cases h.symm.trans (Ref.resolve_head_of_error hhead)
      rw [missingRef_of_head_error hhead]
  · rw [Ref.resolve_of_ne_head hname] at h
    rcases Ref.readPointer_cases store (.branch name) with ⟨_, -, -, hread⟩ | ⟨-, hread⟩
    · cases h.symm.trans hread
    · cases h.symm.trans hread
      rw [missingRef_of_ne_head hname]
      rfl

theorem not_resolves_of_error (h : Ref.resolve store name = .error error) : ¬ Resolves store name := by
  rintro ⟨commit, hresolve⟩
  cases h.symm.trans hresolve

theorem startingPoint_of_ref (h : base = Head.name ∨ Ref.isStored store base = true) :
    startingPoint store (some base) = Ref.resolve store base :=
  if_pos (by simpa using h)

theorem startingPoint_of_commit (h : ¬ (base = Head.name ∨ Ref.isStored store base = true)) :
    startingPoint store (some base) = .ok base :=
  if_neg (by simpa using h)

/-! ## Refusals and obstacles -/

theorem stops_of_baseless {base : Option String} (hvalid : BranchName.isValid name = true)
    (hnew : isStored store name = false) (h : startingPoint store base = .error error) :
    Stops (obstacles store (.create name base)) error := by
  cases base with
  | none =>
      rw [resolve_eq_error h]
      exact .later (by simp [hvalid]) (.later (by simp [hnew]) (.here (not_resolves_of_error h)))
  | some base =>
      by_cases href : base = Head.name ∨ Ref.isStored store base = true
      · rw [startingPoint_of_ref href] at h
        rw [resolve_eq_error h]
        exact .later (by simp [hvalid]) (.later (by simp [hnew]) (.here ⟨href, not_resolves_of_error h⟩))
      · cases h.symm.trans (startingPoint_of_commit href)

/-- In a legible store the reason of a refusal is the first obstacle. -/
theorem Refuses.stops (h : Refuses store command error) (hstore : Legible store) :
    Stops (obstacles store command) error := by
  obtain ⟨active, hactive⟩ := hstore.told
  have hread {name : String} {error : Error} (hstored : isStored store name = true)
      (hresolve : Ref.resolve store name = .error error) : False :=
    not_resolves_of_error hresolve (hstore.branches name hstored)
  cases h with
  | @createInvalid name base hvalid => cases base <;> exact .here hvalid
  | @createTaken name base hvalid hstored =>
      cases base <;> exact .later (by simp [hvalid]) (.here hstored)
  | createBaseless hvalid hnew hbase => exact stops_of_baseless hvalid hnew hbase
  | checkoutMissing hmissing => exact .here hmissing
  | checkoutUncreated hmissing hcreate =>
      cases hcreate with
      | createInvalid hvalid => exact .here ⟨hmissing, hvalid⟩
      | createTaken _ hstored => cases hmissing.symm.trans hstored
      | createBaseless hvalid _ hhead =>
          rw [resolve_eq_error hhead]
          exact .later (by simp [hvalid]) (.here ⟨hmissing, not_resolves_of_error hhead⟩)
  | checkoutUntold _ huntold => cases huntold.symm.trans hactive
  | removeMissing hmissing => exact .here hmissing
  | removeUntold _ huntold => cases huntold.symm.trans hactive
  | removeCurrent hstored hcurrent => exact .later (by simp [hstored]) (.here ⟨hcurrent, rfl⟩)
  | removeUnread hstored _ _ hresolve => exact (hread hstored hresolve).elim
  | renameInvalid hvalid => exact .here hvalid
  | renameMissing hvalid hmissing => exact .later (by simp [hvalid]) (.here hmissing)
  | renameTaken hvalid hold htaken =>
      exact .later (by simp [hvalid]) (.later (by simp [hold]) (.here htaken))
  | renameUnread _ hold _ hresolve => exact (hread hold hresolve).elim
  | renameUntold _ _ _ _ huntold => cases huntold.symm.trans hactive

/-! ## Answers -/

theorem feasible_create {base : Option String} (hvalid : BranchName.isValid name = true)
    (hnew : isStored store name = false) (h : startingPoint store base = .ok commit) :
    Feasible store (.create name base) := by
  cases base with
  | none => exact ⟨hvalid, hnew, commit, h⟩
  | some base => exact ⟨hvalid, hnew, fun href => ⟨commit, (startingPoint_of_ref href).symm.trans h⟩⟩

/-- Whatever is stored, a command that is not refused has what it needs and succeeds. -/
theorem refuses_or_feasible (repo : Repository MemoryStore) (command : BranchCommand) :
    (∃ error, Refuses repo.store command error ∧ (command.operation repo).1 = .error error) ∨
      Feasible repo.store command ∧ (command.operation repo).1 = .ok () := by
  cases command with
  | create name base =>
      rcases create_cases repo name base with ⟨error, hrefuses, hrefused⟩ | ⟨commit, hvalid, hnew, hbase, hcreate⟩
      · exact .inl ⟨error, hrefuses, congrArg Prod.fst hrefused⟩
      · have hdone := hcreate.trans (changeAndTell_of_ok (update_eq repo.store hvalid commit))
        exact .inr ⟨feasible_create hvalid hnew hbase, congrArg Prod.fst hdone⟩
  | checkout name createMissing =>
      rcases checkout_cases repo name createMissing with
        ⟨error, hrefuses, hrefused⟩ | ⟨_, hstored, -, hdone⟩ | ⟨commit, _, hcreate, hvalid, -, hhead, -, hdone⟩
      · exact .inl ⟨error, hrefuses, congrArg Prod.fst hrefused⟩
      · exact .inr ⟨.inl hstored, congrArg Prod.fst hdone⟩
      · exact .inr ⟨.inr ⟨hcreate, hvalid, commit, hhead⟩, congrArg Prod.fst hdone⟩
  | remove name force =>
      rcases remove_cases repo name force with
        ⟨error, hrefuses, hrefused⟩ | ⟨active, commit, hstored, hcurrent, hforced, -, hremove⟩
      · exact .inl ⟨error, hrefuses, congrArg Prod.fst hrefused⟩
      · have hdone := hremove.trans (changeAndTell_of_ok (delete_eq (isStored_iff.1 hstored).2))
        have hspared : force = true ∨ current repo.store ≠ .ok (some name) := by
          rw [hcurrent]
          by_cases hactive : active = some name
          · exact .inl (hforced hactive)
          · exact .inr (by simpa using hactive)
        exact .inr ⟨⟨hstored, hspared⟩, congrArg Prod.fst hdone⟩
  | rename oldName newName =>
      rcases rename_cases repo oldName newName with
        ⟨error, hrefuses, hrefused⟩ | ⟨active, commit, hvalid, hold, hnew, -, -, hrename⟩
      · exact .inl ⟨error, hrefuses, congrArg Prod.fst hrefused⟩
      · have hdone := hrename.trans (move_eq hvalid hold hnew commit _)
        exact .inr ⟨⟨hvalid, hold, hnew⟩, congrArg Prod.fst hdone⟩

/-- In a legible store a command succeeds exactly if it has what it needs, and an error is that of the first
obstacle. -/
theorem outcome_iff (repo : Repository MemoryStore) (command : BranchCommand) (h : Legible repo.store) :
    ((command.operation repo).1 = .ok () ↔ Feasible repo.store command) ∧
      ∀ error, (command.operation repo).1 = .error error ↔ Stops (obstacles repo.store command) error := by
  rcases refuses_or_feasible repo command with ⟨found, hrefuses, hfound⟩ | ⟨hfeasible, hdone⟩
  · have hstops := hrefuses.stops h
    rw [hfound]
    refine ⟨by simp [hstops.not_feasible], fun error => ⟨?_, fun hother => ?_⟩⟩
    · rintro ⟨⟩
      exact hstops
    · rw [hstops.unique hother]
  · rw [hdone]
    refine ⟨by simp [hfeasible], fun error => ⟨by simp, fun hstops => ?_⟩⟩
    exact absurd hfeasible hstops.not_feasible

/-- HEAD names a branch that is not there: a new one cannot start at it, and its name is free. -/
theorem outcome_iff_of_unborn_branch :
    let repo : Repository MemoryStore := { store := ⟨.ofList [("HEAD", "ref: main\n"), ("refs/heads/dev", "c2\n")]⟩ }
    Legible repo.store ∧
      ((BranchCommand.checkout "topic" true).operation repo).1 = .error (.refNotFound "main") ∧
      Stops (obstacles repo.store (.checkout "topic" true)) (.refNotFound "main") ∧
      ((BranchCommand.rename "gone" "dev").operation repo).1 = .error .branchNotFound ∧
      Stops (obstacles repo.store (.rename "gone" "dev")) .branchNotFound ∧
      ((BranchCommand.rename "dev" "main").operation repo).1 = .ok () ∧
      Feasible repo.store (.rename "dev" "main") := by
  intro repo
  have hpointers : ∀ entry ∈ repo.store.objects.entries, Ref.trimPointer entry.2 ≠ "" := by decide +kernel
  have hreadable : Readable repo.store := fun key content hget =>
    hpointers (key, content) (Dict.get?_eq_some_iff.1 hget)
  have hstore := hreadable.legible
  have hcheckout : ((BranchCommand.checkout "topic" true).operation repo).1 = .error (.refNotFound "main") := by
    decide +kernel
  have hmissing : ((BranchCommand.rename "gone" "dev").operation repo).1 = .error .branchNotFound := by decide +kernel
  have hrename : ((BranchCommand.rename "dev" "main").operation repo).1 = .ok () := by decide +kernel
  exact ⟨hstore, hcheckout, ((outcome_iff repo _ hstore).2 _).1 hcheckout,
    hmissing, ((outcome_iff repo _ hstore).2 _).1 hmissing, hrename, (outcome_iff repo _ hstore).1.1 hrename⟩

end VersionControl.Branch
