import Mathlib.Data.List.Count
import Mathlib.Data.List.Induction
import VersionControl.Proofs.Branch.Health
import VersionControl.Proofs.Branch.Listing
import VersionControl.Proofs.Bytes

/-!
# The list of branches

The list is put together from what stands under the keys of refs, while a branch is looked up by its name and the
current one is read from HEAD. After every run from an empty store the three agree.
-/

namespace VersionControl.Branch

variable {Allowed : String → Prop} {store after : MemoryStore} {branches : List Branch} {name : String}

/-- A list of branches tells of each branch once, in the order of the names, and marks the one that HEAD is in, if that
is a branch. -/
structure IsInventory (store : MemoryStore) (branches : List Branch) : Prop where
  ascending : branches.Pairwise fun a b => Text.bytes a.name < Text.bytes b.name
  complete : ∀ name, (∃ branch ∈ branches, branch.name = name) ↔ isStored store name = true
  commits : ∀ branch ∈ branches, Ref.resolve store branch.name = .ok branch.commit
  marked : ∃ active, current store = .ok active ∧
    (branches.filter (·.isCurrent)).map (·.name) = active.toList.filter (isStored store)

/-! ## Lists and stores -/

theorem OnlyBranches.isValid (honly : OnlyBranches store)
    (hhas : ObjectStore.has store (Ref.key name) = true) : BranchName.isValid name = true := by
  obtain ⟨content, hget⟩ := MemoryStore.has_iff.1 hhas
  rcases honly _ content hget with hhead | ⟨other, hvalid, heq⟩
  · exact absurd hhead (Ref.key_ne_head name)
  · rwa [Ref.key_injective heq]

/-- HEAD is no name for a branch, so that no branch stands in its way. -/
theorem OnlyBranches.unshadowed (honly : OnlyBranches store) :
    ObjectStore.has store (Ref.key Head.name) = false :=
  Bool.eq_false_iff.2 fun hhas => BranchName.ne_head (honly.isValid hhas) rfl

theorem current_of_list (h : list store = .ok branches) : ∃ active, current store = .ok active := by
  rw [list, names_eq] at h
  cases hcurrent : current store with
  | error error =>
      rw [hcurrent] at h
      cases h
  | ok active => exact ⟨active, rfl⟩

theorem Shows.isStored_iff {table : BranchTable} (h : Shows store table) (honly : OnlyBranches store) :
    isStored store name = true ↔ name ∈ table.commits.keys := by
  rw [Branch.isStored_iff, MemoryStore.has_iff, Dict.mem_keys]
  simp only [h.commits, Option.map_eq_some_iff]
  constructor
  · rintro ⟨-, content, hget⟩
    exact ⟨_, content, hget, rfl⟩
  · rintro ⟨-, content, hget, -⟩
    exact ⟨honly.isValid (MemoryStore.has_iff.2 ⟨content, hget⟩), content, hget⟩

/-- Of distinct names at most one is the given one. -/
theorem filter_eq_toList {names : List String} (h : names.Nodup) (active : Option String) :
    names.filter (fun name => active = some name) = active.toList.filter (· ∈ names) := by
  cases active with
  | none => simp
  | some active =>
      simp only [Option.some.injEq, eq_comm (a := active), List.filter_eq, h.count, Option.toList_some]
      split
      case isTrue hmem => simp [hmem]
      case isFalse hmissing => simp [hmissing]

theorem Shows.isInventory {table : BranchTable} (h : Shows store table) (honly : OnlyBranches store) :
    IsInventory store table.toList where
  ascending := List.pairwise_map.2 (table.commits.ascending.imp Text.bytes_lt_of_lt)
  complete name := by
    rw [h.isStored_iff honly]
    simp [BranchTable.toList, Dict.keys]
  commits := List.forall_mem_map.2 fun _ hmem => h.resolve (Dict.get?_eq_some_iff.2 hmem)
  marked := by
    have hnodup : table.commits.keys.Nodup := table.commits.keys_ascending.imp String.ne_of_lt
    have hstored (name : String) : decide (name ∈ table.commits.keys) = isStored store name :=
      Bool.eq_iff_iff.2 (decide_eq_true_iff.trans (h.isStored_iff honly).symm)
    refine ⟨table.current, h.current, ?_⟩
    calc (table.toList.filter (·.isCurrent)).map (·.name)
      _ = table.commits.keys.filter (fun name => table.current = some name) := by
        simp [BranchTable.toList, Dict.keys, List.filter_map, Function.comp_def]
      _ = table.current.toList.filter (· ∈ table.commits.keys) := filter_eq_toList hnodup table.current
      _ = table.current.toList.filter (isStored store) := List.filter_congr fun name _ => hstored name

theorem isInventory_of_list (honly : OnlyBranches store) (hlist : list store = .ok branches) :
    IsInventory store branches := by
  obtain ⟨active, hcurrent⟩ := current_of_list hlist
  have hshows := shows_of_list honly.unshadowed hlist hcurrent
  rw [Except.ok.inj (hlist.symm.trans (list_of_shows hshows))]
  exact hshows.isInventory honly

/-! ## Where HEAD is -/

/-- HEAD is in a branch, or nothing was checked out yet. -/
def IsPlaced (store : MemoryStore) : Prop :=
  ObjectStore.has store Head.name = false ∨ ∃ name, current store = .ok (some name) ∧ isStored store name = true

/-- HEAD is in a branch that is not there any more. -/
def IsLeftIn (name : String) (store : MemoryStore) : Prop :=
  current store = .ok (some name) ∧ isStored store name = false

variable {commit other : String} {event : BranchEvent}

theorem isPlaced_enter (h : isStored store name = true) : IsPlaced (enter name store) :=
  .inr ⟨name, current_of_symbolic (head_of_enter (isStored_iff.1 h).1), (isStored_enter name store name).trans h⟩

theorem IsPlaced.point (h : IsPlaced store) (hvalid : BranchName.isValid other = true) :
    IsPlaced (point other commit store) := by
  rcases h with hunset | ⟨name, hcurrent, hstored⟩
  · exact .inl ((MemoryStore.has_congr (by rw [get?_point, if_neg (Ref.key_ne_head other)])).trans hunset)
  · refine .inr ⟨name, (current_point other commit store).trans hcurrent, ?_⟩
    by_cases hname : other = name
    · exact hname ▸ isStored_point_self hvalid
    · exact (isStored_point_of_ne hname).trans hstored

theorem IsPlaced.drop (h : IsPlaced store) (hother : current store ≠ .ok (some other)) :
    IsPlaced (drop other store) := by
  rcases h with hunset | ⟨name, hcurrent, hstored⟩
  · exact .inl ((MemoryStore.has_congr (by rw [get?_drop, if_neg (Ref.key_ne_head other)])).trans hunset)
  · have hne : other ≠ name := fun heq => hother (heq ▸ hcurrent)
    exact .inr ⟨name, (current_drop other store).trans hcurrent, (isStored_drop_of_ne hne).trans hstored⟩

theorem IsLeftIn.point (h : IsLeftIn name store) (hvalid : BranchName.isValid other = true) :
    IsPlaced (point other commit store) ∨ IsLeftIn name (point other commit store) := by
  have hcurrent := (current_point other commit store).trans h.1
  by_cases hname : other = name
  · exact .inl (.inr ⟨name, hcurrent, hname ▸ isStored_point_self hvalid⟩)
  · exact .inr ⟨hcurrent, (isStored_point_of_ne hname).trans h.2⟩

theorem IsLeftIn.drop (h : IsLeftIn name store) (hother : isStored store other = true) :
    IsLeftIn name (drop other store) :=
  ⟨(current_drop other store).trans h.1, (isStored_drop_of_ne (ne_of_isStored hother h.2)).trans h.2⟩

theorem isLeftIn_drop (h : current store = .ok (some name)) : IsLeftIn name (drop name store) :=
  ⟨(current_drop name store).trans h, isStored_drop_self⟩

/-- HEAD goes along with a branch that it is in. -/
theorem isPlaced_moveTo {oldName newName : String} (hvalid : BranchName.isValid newName = true)
    (hne : oldName ≠ newName) : IsPlaced (moveTo oldName newName commit true store) :=
  isPlaced_enter ((isStored_drop_of_ne hne).trans (isStored_point_self hvalid))

/-- Only the deletion of the branch that HEAD is in leaves HEAD behind. -/
theorem IsPlaced.occurs (h : IsPlaced store) (hoccurs : Occurs Allowed store event after) :
    IsPlaced after ∨ ∃ name commit, event = .deleted name commit true ∧ current store = .ok (some name) ∧
      IsLeftIn name after := by
  cases hoccurs with
  | created hvalid => exact .inl (h.point hvalid)
  | checkedOut hstored => exact .inl (isPlaced_enter hstored)
  | @deleted name commit active forced hvalid hresolve hactive hforced =>
      by_cases hcurrent : active = some name
      · rw [hcurrent] at hactive
        rw [hforced hcurrent]
        exact .inr ⟨name, commit, rfl, hactive, isLeftIn_drop hactive⟩
      · exact .inl (h.drop fun heq => hcurrent (Except.ok.inj (hactive.symm.trans heq)))
  | @renamed oldName newName commit active hvalid hold hnew hresolve hactive =>
      refine .inl ?_
      by_cases hcurrent : active = some oldName
      · rw [decide_eq_true hcurrent]
        exact isPlaced_moveTo hvalid (ne_of_isStored hold hnew)
      · rw [decide_eq_false hcurrent]
        exact (h.point hvalid).drop (by rwa [current_point, hactive, Ne, Except.ok.injEq])

theorem IsLeftIn.occurs (h : IsLeftIn name store) (hoccurs : Occurs Allowed store event after) :
    IsPlaced after ∨ IsLeftIn name after := by
  cases hoccurs with
  | created hvalid => exact h.point hvalid
  | checkedOut hstored => exact .inl (isPlaced_enter hstored)
  | deleted hvalid hresolve =>
      rw [Ref.resolve_of_ne_head (BranchName.ne_head hvalid)] at hresolve
      exact .inr (h.drop (isStored_iff.2 ⟨hvalid, (Ref.readPointer_eq_ok hresolve).1⟩))
  | @renamed oldName newName commit active hvalid hold hnew hresolve hactive =>
      by_cases hcurrent : active = some oldName
      · rw [decide_eq_true hcurrent]
        exact .inl (isPlaced_moveTo hvalid (ne_of_isStored hold hnew))
      · rw [decide_eq_false hcurrent]
        rcases h.point hvalid with hplaced | hleft
        · exact .inl (hplaced.drop (by rwa [current_point, hactive, Ne, Except.ok.injEq]))
        · exact .inr (hleft.drop ((isStored_point_of_ne (ne_of_isStored hold hnew).symm).trans hold))

/-! ## Runs from an empty store -/

def fresh : Repository MemoryStore := { store := .empty }

/-- The next command deletes the branch by force while HEAD is in it. -/
def IsForcedOut (name : String) (before : List BranchCommand) : Prop :=
  current (BranchCommand.run before fresh).store = .ok (some name) ∧
    (remove name true (BranchCommand.run before fresh)).1 = .ok ()

/-- HEAD is left in a branch only if the branch was once deleted by force under it. -/
def IsExplained (commands : List BranchCommand) (store : MemoryStore) : Prop :=
  IsPlaced store ∨ ∃ name before rest, IsLeftIn name store ∧ commands = before ++ .remove name true :: rest ∧
    IsForcedOut name before

variable {commands : List BranchCommand}

theorem IsExplained.append (h : IsExplained commands store) (more : List BranchCommand) :
    IsExplained (commands ++ more) store := by
  refine h.imp_right ?_
  rintro ⟨name, before, rest, hleft, rfl, hforced⟩
  exact ⟨name, before, rest ++ more, hleft, by rw [List.append_assoc, List.cons_append], hforced⟩

theorem IsExplained.occurs (h : IsExplained commands store) (hoccurs : Occurs Allowed store event after)
    (hspared : ∀ name commit, event ≠ .deleted name commit true) : IsExplained commands after := by
  rcases h with hplaced | ⟨name, before, rest, hleft, hcommands, hforced⟩
  · rcases hplaced.occurs hoccurs with hplaced | ⟨name, commit, hevent, -⟩
    · exact .inl hplaced
    · exact absurd hevent (hspared name commit)
  · exact (hleft.occurs hoccurs).imp_right fun hleft => ⟨name, before, rest, hleft, hcommands, hforced⟩

theorem IsExplained.deleted {forced : Bool} (h : IsExplained commands (BranchCommand.run commands fresh).store)
    (hoccurs : Occurs Allowed (BranchCommand.run commands fresh).store (.deleted name commit forced) after)
    (hdone : (remove name forced (BranchCommand.run commands fresh)).1 = .ok ()) :
    IsExplained (commands ++ [.remove name forced]) after := by
  rcases h with hplaced | ⟨other, before, rest, hleft, hcommands, hforced⟩
  · rcases hplaced.occurs hoccurs with hplaced | ⟨_, _, hevent, hcurrent, hleft⟩
    · exact .inl hplaced
    · cases hevent
      exact .inr ⟨name, commands, [], hleft, rfl, hcurrent, hdone⟩
  · rcases hleft.occurs hoccurs with hplaced | hleft
    · exact .inl hplaced
    · exact IsExplained.append (.inr ⟨other, before, rest, hleft, hcommands, hforced⟩) _

theorem IsExplained.operation (h : IsExplained commands (BranchCommand.run commands fresh).store)
    (command : BranchCommand) :
    IsExplained (commands ++ [command]) (command.operation (BranchCommand.run commands fresh)).2.store := by
  rcases operation_cases_any (BranchCommand.run commands fresh) command with
    ⟨error, hrefused⟩ | ⟨told, after, hdone, heffect⟩
  · rw [hrefused]
    exact h.append _
  · rw [hdone]
    cases heffect with
    | create hoccurs | checkout hoccurs | rename hoccurs => exact (h.occurs hoccurs (by simp)).append _
    | checkoutNew hcreated hoccurs => exact ((h.occurs hcreated (by simp)).occurs hoccurs (by simp)).append _
    | remove hoccurs => exact h.deleted hoccurs (congrArg Prod.fst hdone)

theorem isExplained_run (commands : List BranchCommand) :
    IsExplained commands (BranchCommand.run commands fresh).store := by
  -- what was done to the branch lies behind, so the run is taken apart at its end
  induction commands using List.reverseRecOn with
  | nil => exact .inl (.inl rfl)
  | append_singleton commands command ih =>
      rw [BranchCommand.run_append]
      exact ih.operation command

/-- After every run from an empty store the list of branches, if there is one, tells of all branches and of nothing
else. No branch is marked only while HEAD is unset, or left in a branch that was deleted by force under it. -/
theorem isInventory_run (commands : List BranchCommand)
    (hlist : list (BranchCommand.run commands fresh).store = .ok branches) :
    IsInventory (BranchCommand.run commands fresh).store branches ∧
      IsExplained commands (BranchCommand.run commands fresh).store :=
  ⟨isInventory_of_list (onlyBranches_run commands) hlist, isExplained_run commands⟩

/-- A run that ends in a branch which it has deleted, after a refusal. -/
def departure : List BranchCommand :=
  [.create "main" (some "c1"), .create "main.x" (some "c2 "), .checkout "main" false, .checkout "main/y" true,
    .rename "main/y" "dev", .remove "dev" false, .remove "dev" true]

theorem isInventory_run_of_departure :
    list (BranchCommand.run departure fresh).store = .ok [⟨"main", "c1", false⟩, ⟨"main.x", "c2", false⟩] ∧
      isStored (BranchCommand.run departure fresh).store "main.x" = true ∧
      Ref.resolve (BranchCommand.run departure fresh).store "main.x" = .ok "c2" ∧
      IsLeftIn "dev" (BranchCommand.run departure fresh).store := by
  have hlist : list (BranchCommand.run departure fresh).store =
      .ok [⟨"main", "c1", false⟩, ⟨"main.x", "c2", false⟩] := by decide +kernel
  obtain ⟨hinventory, -⟩ := isInventory_run departure hlist
  refine ⟨hlist, (hinventory.complete "main.x").1 ⟨_, List.mem_of_getElem? (i := 1) rfl, rfl⟩, ?_, ?_⟩
  · exact hinventory.commits ⟨"main.x", "c2", false⟩ (by decide)
  · exact ⟨by decide +kernel, by decide +kernel⟩

end VersionControl.Branch
