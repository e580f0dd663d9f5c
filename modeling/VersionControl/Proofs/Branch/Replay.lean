import VersionControl.Proofs.Branch.Listing

/-!
# Events as a log

What is published tells all there is to know: who saw the branches once and replays the events on what was seen
knows what would be seen now.
-/

namespace VersionControl.Branch

variable {Allowed : String → Prop} {store after : MemoryStore} {table : BranchTable} {event : BranchEvent}
  {command : BranchCommand} {told : List BranchEvent} {repo : Repository MemoryStore} {name commit : String}

/-! ## Events -/

theorem Shows.get?_of_resolve (h : Shows store table) (hvalid : BranchName.isValid name = true)
    (hresolve : Ref.resolve store name = .ok commit) : table.commits.get? name = some commit := by
  rw [Ref.resolve_of_ne_head (BranchName.ne_head hvalid)] at hresolve
  rw [h.commits]
  exact (Ref.readPointer_eq_ok_iff.1 hresolve).1

theorem shows_point (h : Shows store table) (hvalid : BranchName.isValid name = true) (hcommit : IsTrimmed commit) :
    Shows (point name commit store) (table.apply (.created name commit)) where
  unshadowed := by simp [BranchName.ne_head hvalid, h.unshadowed]
  commits other := by
    have htrim : Ref.trimPointer (commit ++ "\n") = commit := (Ref.trimPointer_newline commit).trans hcommit.1
    by_cases hname : name = other <;> simp [BranchTable.apply, hname, h.commits, htrim]
  notBlank other pointer hget := by
    rw [BranchTable.apply, Dict.get?_insert] at hget
    split at hget
    case isTrue =>
      cases hget
      exact hcommit.2
    case isFalse => exact h.notBlank other pointer hget
  current := (current_point name commit store).trans h.current

theorem shows_drop (h : Shows store table) (name commit : String) (forced : Bool) :
    Shows (drop name store) (table.apply (.deleted name commit forced)) where
  unshadowed := by simp [h.unshadowed]
  commits other := by by_cases hname : name = other <;> simp [BranchTable.apply, hname, h.commits]
  notBlank other pointer hget := by
    rw [BranchTable.apply, Dict.get?_erase] at hget
    split at hget
    case isTrue => cases hget
    case isFalse => exact h.notBlank other pointer hget
  current := (current_drop name store).trans h.current

theorem shows_enter (h : Shows store table) (hvalid : BranchName.isValid name = true) (previous : Option String) :
    Shows (enter name store) (table.apply (.checkedOut name previous)) where
  unshadowed := by simp [(Ref.key_ne_head _).symm, h.unshadowed]
  commits other := by simp [BranchTable.apply, (Ref.key_ne_head _).symm, h.commits]
  notBlank := h.notBlank
  current := current_of_symbolic (head_of_enter hvalid)

/-- A branch changes its name by being created under the new one and deleted under the old one. -/
theorem apply_renamed {oldName newName : String} (hget : table.commits.get? oldName = some commit)
    (hne : oldName ≠ newName) : table.apply (.renamed oldName newName false) =
      (table.apply (.created newName commit)).apply (.deleted oldName commit false) := by
  have hcommits : (table.commits.erase oldName).insert newName commit =
      (table.commits.insert newName commit).erase oldName := Dict.ext_get? fun name => by
    by_cases hold : oldName = name
    · simp [← hold, hne.symm]
    · simp [hold]
  simp [BranchTable.apply, hget, hcommits]

theorem Occurs.shows (h : Occurs IsTrimmed store event after) (hstore : Shows store table) :
    Shows after (table.apply event) := by
  cases h with
  | created hvalid _ hcommit => exact shows_point hstore hvalid hcommit
  | deleted => exact shows_drop hstore _ _ _
  | checkedOut hstored => exact shows_enter hstore (isStored_iff.1 hstored).1 _
  | @renamed oldName newName commit active hvalid hold hnew hresolve hactive =>
      have hne := ne_of_isStored hold hnew
      have hget := hstore.get?_of_resolve (isStored_iff.1 hold).1 hresolve
      have hmoved :=
        shows_drop (shows_point hstore hvalid (Ref.trimPointer_of_resolve hresolve)) oldName commit false
      rw [← apply_renamed hget hne] at hmoved
      by_cases hcurrent : active = some oldName
      · rw [decide_eq_true hcurrent]
        exact shows_enter hmoved hvalid none
      · rw [decide_eq_false hcurrent]
        exact hmoved

/-! ## Commands -/

/-- What is told of a deletion or a checkout is how things stood just before the command. -/
def IsAccurate {σ : Type} [ObjectStore σ] (repo : Repository σ) (command : BranchCommand) : BranchEvent → Prop
  | .deleted name commit forced =>
    command = .remove name forced ∧ Ref.resolve repo.store name = .ok commit
  | .checkedOut name previous =>
    (∃ createMissing, command = .checkout name createMissing) ∧ current repo.store = .ok previous
  | .created .. | .renamed .. => True

theorem Effect.shows (h : Effect IsTrimmed store command told after) (hstore : Shows store table) :
    Shows after (table.replay told) := by
  cases h with
  | create h | checkout h | remove h | rename h => exact h.shows hstore
  | checkoutNew hcreated h => exact h.shows (hcreated.shows hstore)

theorem Effect.isAccurate (h : Effect Allowed repo.store command told after) :
    ∀ event ∈ told, IsAccurate repo command event := by
  cases h with
  | create => simp [IsAccurate]
  | rename => simp [IsAccurate]
  | checkout h =>
      cases h with
      | checkedOut _ hcurrent => simp [IsAccurate, hcurrent]
  | remove h =>
      cases h with
      | deleted _ hresolve => simp [IsAccurate, hresolve]
  | checkoutNew hcreated h =>
      cases hcreated with
      | created =>
          cases h with
          | checkedOut _ hcurrent =>
              -- HEAD was looked at between the two changes, and the creation had left it alone
              rw [current_point] at hcurrent
              simp [IsAccurate, hcurrent]

theorem isAccurate_operation (repo : Repository MemoryStore) (command : BranchCommand) :
    ∃ told, (command.operation repo).2.published = repo.published ++ told ∧
      ∀ event ∈ told, IsAccurate repo command event := by
  rcases operation_cases_any repo command with ⟨error, hrefused⟩ | ⟨told, after, hdone, heffect⟩
  · exact ⟨[], by simp [hrefused], by simp⟩
  · exact ⟨told, by rw [hdone], heffect.isAccurate⟩

theorem shows_operation (command : BranchCommand) (hstore : Shows repo.store table)
    (hbase : ∀ name base, command = .create name (some base) → IsTrimmed base) :
    ∃ told, (command.operation repo).2.published = repo.published ++ told ∧
      Shows (command.operation repo).2.store (table.replay told) := by
  rcases operation_cases repo command (fun _ h => h) (fun name base h _ => hbase name base h) with
    ⟨error, hrefused⟩ | ⟨told, after, hdone, heffect⟩
  · rw [hrefused]
    exact ⟨[], by simp, hstore⟩
  · rw [hdone]
    exact ⟨told, rfl, heffect.shows hstore⟩

theorem shows_run (commands : List BranchCommand) (hstore : Shows repo.store table)
    (hbases : ∀ name base, .create name (some base) ∈ commands → IsTrimmed base) :
    ∃ told, (BranchCommand.run commands repo).published = repo.published ++ told ∧
      Shows (BranchCommand.run commands repo).store (table.replay told) := by
  induction commands generalizing repo table with
  | nil => exact ⟨[], by simp [BranchCommand.run], hstore⟩
  | cons command rest ih =>
      obtain ⟨first, hfirst, hshows⟩ := shows_operation command hstore fun name base heq =>
        hbases name base (heq ▸ List.mem_cons_self)
      obtain ⟨later, hlater, hend⟩ := ih hshows fun name base hmem =>
        hbases name base (List.mem_cons_of_mem _ hmem)
      rw [BranchCommand.run_cons]
      refine ⟨first ++ later, ?_, ?_⟩
      · rw [hlater, hfirst, List.append_assoc]
      · rwa [BranchTable.replay_append]

/-- Replaying the events of a run on the table of the first list gives the table of the last one, and what each event
tells of the past is so. -/
theorem replay_run {branches : List Branch} {active : Option String} (commands : List BranchCommand)
    (hhead : ObjectStore.has repo.store (Ref.key Head.name) = false)
    (hlist : list repo.store = .ok branches) (hcurrent : current repo.store = .ok active)
    (hbases : ∀ name base, .create name (some base) ∈ commands →
      base ≠ "" ∧ ∀ c ∈ base.toList.getLast?, Ref.isTrailingBlank c = false) :
    (∃ told, (BranchCommand.run commands repo).published = repo.published ++ told ∧
      list (BranchCommand.run commands repo).store = .ok ((BranchTable.ofList branches active).replay told).toList ∧
      current (BranchCommand.run commands repo).store =
        .ok ((BranchTable.ofList branches active).replay told).current) ∧
    ∀ before command rest, commands = before ++ command :: rest →
      ∃ told, (command.operation (BranchCommand.run before repo)).2.published =
          (BranchCommand.run before repo).published ++ told ∧
        ∀ event ∈ told, IsAccurate (BranchCommand.run before repo) command event := by
  obtain ⟨told, hpublished, hshows⟩ := shows_run commands (shows_of_list hhead hlist hcurrent)
    fun name base hmem => ⟨Text.trimEndWhile_eq_self (hbases name base hmem).2, (hbases name base hmem).1⟩
  exact ⟨⟨told, hpublished, list_of_shows hshows, hshows.current⟩,
    fun before command _ _ => isAccurate_operation (BranchCommand.run before repo) command⟩

/-- HEAD is in `main`, and a ref stands beside it that has no branch name. -/
def mainAndStray : Repository MemoryStore :=
  { store := ⟨.ofList [("HEAD", "ref: main\n"), ("refs/heads/main", "c1 \r\n"), ("refs/heads/~", "c9\n")]⟩ }

def detour : List BranchCommand :=
  [.checkout "fix" true, .rename "fix" "dev/fix", .remove "dev/fix" false, .remove "dev/fix" true,
    .create "late" (some "c5"), .checkout "late" false]

/-- The log of a run that creates a branch by entering it and deletes the branch that it is in. -/
theorem replay_run_of_detour :
    (BranchCommand.run detour mainAndStray).published =
      [.created "fix" "c1", .checkedOut "fix" (some "main"), .renamed "fix" "dev/fix" true,
        .deleted "dev/fix" "c1" true, .created "late" "c5", .checkedOut "late" (some "dev/fix")] ∧
    ∃ told, (BranchCommand.run detour mainAndStray).published = mainAndStray.published ++ told ∧
      list (BranchCommand.run detour mainAndStray).store =
        .ok ((BranchTable.ofList [⟨"main", "c1", true⟩, ⟨"~", "c9", false⟩] (some "main")).replay told).toList ∧
      current (BranchCommand.run detour mainAndStray).store =
        .ok ((BranchTable.ofList [⟨"main", "c1", true⟩, ⟨"~", "c9", false⟩] (some "main")).replay told).current := by
  refine ⟨by decide +kernel, (replay_run detour (by decide +kernel) (by decide +kernel) (by decide +kernel) ?_).1⟩
  intro name base hmem
  obtain ⟨rfl, rfl⟩ : name = "late" ∧ base = "c5" := by simpa [detour] using hmem
  exact ⟨by decide, by simp [Ref.isTrailingBlank]⟩

end VersionControl.Branch
