import VersionControl.Proofs.Branch.Operations
import VersionControl.Proofs.Ref.Memory

/-!
# Events as changes

In memory a command either fails and leaves everything as it was, or it makes a change, or two, and publishes one
event for each. That an event occurs says all that was looked at before and what the store is afterwards.
-/

namespace VersionControl.Branch

variable {Allowed : String → Prop} {repo : Repository MemoryStore} {store after : MemoryStore} {name commit : String}

/-! ## Refs in memory -/

def point (name commit : String) (store : MemoryStore) : MemoryStore :=
  ⟨store.objects.insert (Ref.key name) (commit ++ "\n")⟩

def drop (name : String) (store : MemoryStore) : MemoryStore := ⟨store.objects.erase (Ref.key name)⟩

def enter (name : String) (store : MemoryStore) : MemoryStore :=
  ⟨store.objects.insert Head.name (Head.symbolic name).encode⟩

@[simp] theorem get?_point (name commit : String) (store : MemoryStore) (key : String) :
    (point name commit store).objects.get? key =
      if Ref.key name = key then some (commit ++ "\n") else store.objects.get? key :=
  Dict.get?_insert _ _ _ _

@[simp] theorem get?_drop (name : String) (store : MemoryStore) (key : String) :
    (drop name store).objects.get? key = if Ref.key name = key then none else store.objects.get? key :=
  Dict.get?_erase _ _ _

@[simp] theorem get?_enter (name : String) (store : MemoryStore) (key : String) :
    (enter name store).objects.get? key =
      if Head.name = key then some (Head.symbolic name).encode else store.objects.get? key :=
  Dict.get?_insert _ _ _ _

theorem update_eq (store : MemoryStore) (hvalid : BranchName.isValid name = true) (commit : String) :
    Ref.update name commit store = (.ok (), point name commit store) :=
  Ref.update_eq (BranchName.ne_head hvalid) commit store

theorem setHead_eq (store : MemoryStore) (name : String) :
    Ref.setHead (.symbolic name) store = (.ok (), enter name store) :=
  store.write_eq Ref.isPlain_head.ne_empty (Head.symbolic name).encode

theorem delete_eq (hhas : ObjectStore.has store (Ref.key name) = true) :
    Ref.delete name store = (.ok (), drop name store) :=
  Ref.delete_eq hhas

theorem current_of_get?_eq (hget : after.objects.get? Head.name = store.objects.get? Head.name) :
    current after = current store := by
  rw [current, current, MemoryStore.has_congr hget, Ref.head_of_get?_eq hget]

@[simp] theorem current_point (name commit : String) (store : MemoryStore) :
    current (point name commit store) = current store :=
  current_of_get?_eq (by rw [get?_point, if_neg (Ref.key_ne_head name)])

@[simp] theorem current_drop (name : String) (store : MemoryStore) : current (drop name store) = current store :=
  current_of_get?_eq (by rw [get?_drop, if_neg (Ref.key_ne_head name)])

theorem head_of_enter (hvalid : BranchName.isValid name = true) :
    Ref.head (enter name store) = .ok (.symbolic name) := by
  have hpointer : Ref.readPointer (enter name store) Head.name Head.name = .ok (Head.branchMark ++ name) := by
    rw [← Ref.trimPointer_encode (BranchName.trimPointer_eq_self hvalid) (BranchName.ne_empty hvalid)]
    exact Ref.readPointer_eq_ok_iff.2 ⟨by simp, Ref.trimPointer_encode_ne_empty name⟩
  rw [Ref.head_eq_ok_of_readPointer hpointer, Ref.ofPointer_branchMark]

/-! ## Branches in memory -/

theorem get?_key_of_missing (hvalid : BranchName.isValid name = true) (hmissing : isStored store name = false) :
    store.objects.get? (Ref.key name) = none :=
  Option.eq_none_iff_forall_ne_some.2 fun content hget => by
    rw [isStored_iff.2 ⟨hvalid, MemoryStore.has_iff.2 ⟨content, hget⟩⟩] at hmissing
    cases hmissing

theorem isStored_of_get?_eq (h : after.objects.get? (Ref.key name) = store.objects.get? (Ref.key name)) :
    isStored after name = isStored store name := by
  rw [Bool.eq_iff_iff, isStored_iff, isStored_iff, MemoryStore.has_congr h]

theorem isStored_enter (name : String) (store : MemoryStore) (other : String) :
    isStored (enter name store) other = isStored store other :=
  isStored_of_get?_eq (by rw [get?_enter, if_neg (Ref.key_ne_head other).symm])

theorem isStored_point_of_ne {other : String} (hne : other ≠ name) :
    isStored (point other commit store) name = isStored store name :=
  isStored_of_get?_eq (by simp [hne])

theorem isStored_point_self (hvalid : BranchName.isValid name = true) :
    isStored (point name commit store) name = true :=
  isStored_iff.2 ⟨hvalid, MemoryStore.has_iff.2 ⟨commit ++ "\n", by simp⟩⟩

theorem isStored_drop_of_ne {other : String} (hne : other ≠ name) :
    isStored (drop other store) name = isStored store name :=
  isStored_of_get?_eq (by simp [hne])

theorem isStored_drop_self : isStored (drop name store) name = false := by
  rw [Bool.eq_false_iff, Ne, isStored_iff, MemoryStore.has_iff]
  simp

/-! ## Events -/

/-- What is left of a store in which a branch has moved to a new name. -/
def moveTo (oldName newName commit : String) (wasCurrent : Bool) (store : MemoryStore) : MemoryStore :=
  let moved := drop oldName (point newName commit store)
  if wasCurrent then enter newName moved else moved

@[simp] theorem get?_moveTo (oldName newName commit : String) (wasCurrent : Bool) (store : MemoryStore)
    (key : String) : (moveTo oldName newName commit wasCurrent store).objects.get? key =
      if wasCurrent = true ∧ Head.name = key then some (Head.symbolic newName).encode
      else if Ref.key oldName = key then none
      else if Ref.key newName = key then some (commit ++ "\n")
      else store.objects.get? key := by
  cases wasCurrent <;> simp [moveTo]

/-- An event occurs in a store and leaves another one; a new branch may start at any text that `Allowed` holds of. -/
inductive Occurs (Allowed : String → Prop) (store : MemoryStore) : BranchEvent → MemoryStore → Prop
  | created {name commit : String} : BranchName.isValid name = true → isStored store name = false →
      Allowed commit → Occurs Allowed store (.created name commit) (point name commit store)
  | deleted {name commit : String} {active : Option String} {forced : Bool} :
      BranchName.isValid name = true → Ref.resolve store name = .ok commit → current store = .ok active →
      (active = some name → forced = true) → Occurs Allowed store (.deleted name commit forced) (drop name store)
  | renamed {oldName newName commit : String} {active : Option String} : BranchName.isValid newName = true →
      isStored store oldName = true → isStored store newName = false →
      Ref.resolve store oldName = .ok commit → current store = .ok active →
      Occurs Allowed store (.renamed oldName newName (active = some oldName))
        (moveTo oldName newName commit (active = some oldName) store)
  | checkedOut {name : String} {previous : Option String} : isStored store name = true →
      current store = .ok previous → Occurs Allowed store (.checkedOut name previous) (enter name store)

/-- The events that a command comes to when it succeeds, and the store that they leave. -/
inductive Effect (Allowed : String → Prop) (store : MemoryStore) :
    BranchCommand → List BranchEvent → MemoryStore → Prop
  | create {name commit : String} {base : Option String} {after : MemoryStore} :
      Occurs Allowed store (.created name commit) after →
      Effect Allowed store (.create name base) [.created name commit] after
  | checkout {name : String} {createMissing : Bool} {previous : Option String} {after : MemoryStore} :
      Occurs Allowed store (.checkedOut name previous) after →
      Effect Allowed store (.checkout name createMissing) [.checkedOut name previous] after
  | checkoutNew {name commit : String} {previous : Option String} {created after : MemoryStore} :
      Occurs Allowed store (.created name commit) created →
      Occurs Allowed created (.checkedOut name previous) after →
      Effect Allowed store (.checkout name true) [.created name commit, .checkedOut name previous] after
  | remove {name commit : String} {force : Bool} {after : MemoryStore} :
      Occurs Allowed store (.deleted name commit force) after →
      Effect Allowed store (.remove name force) [.deleted name commit force] after
  | rename {oldName newName : String} {wasCurrent : Bool} {after : MemoryStore} :
      Occurs Allowed store (.renamed oldName newName wasCurrent) after →
      Effect Allowed store (.rename oldName newName) [.renamed oldName newName wasCurrent] after

/-! ## Commands -/

/-- A text that is read as it stands. -/
def IsTrimmed (text : String) : Prop := Ref.trimPointer text = text ∧ text ≠ ""

/-- A text that is not all blanks and line ends. -/
def IsPointer (text : String) : Prop := Ref.trimPointer text ≠ ""

theorem IsTrimmed.isPointer {text : String} (h : IsTrimmed text) : IsPointer text := by
  rw [IsPointer, h.1]
  exact h.2

theorem isPointer_iff {text : String} : IsPointer text ↔ ∃ c ∈ text.toList, Ref.isTrailingBlank c = false := by
  rw [IsPointer, Ref.trimPointer, Ne, Text.trimEndWhile_eq_empty_iff]
  simp

/-- A new branch starts at a commit that was read, or at the text that was given. -/
theorem isTrimmed_of_startingPoint {base : Option String} (h : startingPoint store base = .ok commit) :
    IsTrimmed commit ∨ base = some commit := by
  cases base with
  | none => exact .inl (Ref.trimPointer_of_resolve h)
  | some base =>
      rw [startingPoint] at h
      split at h
      case isTrue => exact .inl (Ref.trimPointer_of_resolve h)
      case isFalse =>
        cases h
        exact .inr rfl

theorem create_occurs (repo : Repository MemoryStore) (name : String) (base : Option String)
    (hallowed : ∀ commit,
      IsTrimmed commit ∨ base = some commit ∧ (create name base repo).1 = .ok () → Allowed commit) :
    (∃ error, create name base repo = (.error error, repo)) ∨
    ∃ commit, create name base repo =
        (.ok (), ⟨point name commit repo.store, repo.published ++ [.created name commit]⟩) ∧
      Occurs Allowed repo.store (.created name commit) (point name commit repo.store) := by
  rcases create_cases repo name base with ⟨error, -, hrefused⟩ | ⟨commit, hvalid, hnew, hbase, hcreate⟩
  · exact .inl ⟨error, hrefused⟩
  · have hcreated := hcreate.trans (changeAndTell_of_ok (update_eq repo.store hvalid commit))
    refine .inr ⟨commit, hcreated, .created hvalid hnew (hallowed commit ?_)⟩
    rw [hcreated]
    exact (isTrimmed_of_startingPoint hbase).imp_right (⟨·, rfl⟩)

theorem switchTo_eq {previous : Option String} (hcurrent : current repo.store = .ok previous) (name : String) :
    switchTo name repo =
      (.ok (), ⟨enter name repo.store, repo.published ++ [.checkedOut name previous]⟩) :=
  (switchTo_of_current hcurrent).trans (changeAndTell_of_ok (setHead_eq repo.store name))

/-- A checkout is refused, enters a branch that is there, or creates it first at the commit that HEAD leads to. -/
theorem checkout_cases (repo : Repository MemoryStore) (name : String) (createMissing : Bool) :
    (∃ error, Refuses repo.store (.checkout name createMissing) error ∧
      checkout name createMissing repo = (.error error, repo)) ∨
    (∃ previous, isStored repo.store name = true ∧ current repo.store = .ok previous ∧
      checkout name createMissing repo =
        (.ok (), ⟨enter name repo.store, repo.published ++ [.checkedOut name previous]⟩)) ∨
    ∃ commit previous, createMissing = true ∧ BranchName.isValid name = true ∧ isStored repo.store name = false ∧
      Ref.resolve repo.store Head.name = .ok commit ∧ current repo.store = .ok previous ∧
      checkout name createMissing repo = (.ok (), ⟨enter name (point name commit repo.store),
        repo.published ++ [.created name commit, .checkedOut name previous]⟩) := by
  simp only [checkout_eq, Transition.bind_apply]
  rcases require_cases repo name createMissing with
    ⟨hstored, hrequire⟩ | ⟨hmissing, rfl, hrequire⟩ | ⟨hmissing, rfl, hrequire⟩
  · rw [hrequire, Transition.andThen_ok]
    rcases switchTo_cases repo name with ⟨error, hcurrent, hrefused⟩ | ⟨previous, hcurrent, -⟩
    · exact .inl ⟨error, .checkoutUntold hstored hcurrent, hrefused⟩
    · exact .inr (.inl ⟨previous, hstored, hcurrent, switchTo_eq hcurrent name⟩)
  · exact .inl ⟨_, .checkoutMissing hmissing, by rw [hrequire, Transition.andThen_error]⟩
  · rw [hrequire]
    rcases create_cases repo name none with ⟨error, hrefuses, hrefused⟩ | ⟨commit, hvalid, -, hbase, hcreate⟩
    · exact .inl ⟨error, .checkoutUncreated hmissing hrefuses, by rw [hrefused, Transition.andThen_error]⟩
    · -- HEAD was read for the new branch, so that it can be read again
      obtain ⟨pointer, hpointer⟩ := Ref.readPointer_of_resolve_head hbase
      obtain ⟨previous, hcurrent⟩ := current_of_readPointer hpointer
      have hstill := (current_point name commit repo.store).trans hcurrent
      refine .inr (.inr ⟨commit, previous, rfl, hvalid, hmissing, hbase, hcurrent, ?_⟩)
      rw [hcreate.trans (changeAndTell_of_ok (update_eq repo.store hvalid commit)), Transition.andThen_ok,
        switchTo_eq hstill, List.append_assoc]
      rfl

theorem checkout_effect (repo : Repository MemoryStore) (name : String) (createMissing : Bool)
    (hread : ∀ commit, IsTrimmed commit → Allowed commit) :
    (∃ error, checkout name createMissing repo = (.error error, repo)) ∨
    ∃ told after, checkout name createMissing repo = (.ok (), ⟨after, repo.published ++ told⟩) ∧
      Effect Allowed repo.store (.checkout name createMissing) told after := by
  rcases checkout_cases repo name createMissing with
    ⟨error, -, hrefused⟩ | ⟨previous, hstored, hcurrent, hcheckout⟩ |
    ⟨commit, previous, rfl, hvalid, hmissing, hhead, hcurrent, hcheckout⟩
  · exact .inl ⟨error, hrefused⟩
  · exact .inr ⟨_, _, hcheckout, .checkout (.checkedOut hstored hcurrent)⟩
  · have hpointed : ObjectStore.has (point name commit repo.store) (Ref.key name) = true :=
      MemoryStore.has_iff.2 ⟨commit ++ "\n", by simp⟩
    exact .inr ⟨_, _, hcheckout, .checkoutNew
      (.created hvalid hmissing (hread commit (Ref.trimPointer_of_resolve hhead)))
      (.checkedOut (isStored_iff.2 ⟨hvalid, hpointed⟩) ((current_point name commit repo.store).trans hcurrent))⟩

theorem remove_occurs (repo : Repository MemoryStore) (name : String) (force : Bool) :
    (∃ error, remove name force repo = (.error error, repo)) ∨
    ∃ commit, remove name force repo =
        (.ok (), ⟨drop name repo.store, repo.published ++ [.deleted name commit force]⟩) ∧
      Occurs Allowed repo.store (.deleted name commit force) (drop name repo.store) := by
  rcases remove_cases repo name force with
    ⟨error, -, hrefused⟩ | ⟨active, commit, hstored, hcurrent, hforced, hresolve, hremove⟩
  · exact .inl ⟨error, hrefused⟩
  · obtain ⟨hvalid, hhas⟩ := isStored_iff.1 hstored
    exact .inr ⟨commit, hremove.trans (changeAndTell_of_ok (delete_eq hhas)),
      .deleted hvalid hresolve hcurrent hforced⟩

theorem move_eq {oldName newName : String} (hvalid : BranchName.isValid newName = true)
    (hold : isStored repo.store oldName = true) (hnew : isStored repo.store newName = false)
    (commit : String) (wasCurrent : Bool) :
    move oldName newName commit wasCurrent repo =
      (.ok (), ⟨moveTo oldName newName commit wasCurrent repo.store,
        repo.published ++ [.renamed oldName newName wasCurrent]⟩) := by
  have hwrite := update_eq repo.store hvalid commit
  have hkept : (point newName commit repo.store).objects.get? (Ref.key oldName) =
      repo.store.objects.get? (Ref.key oldName) := by
    simp [(ne_of_isStored hold hnew).symm]
  have hstill : ObjectStore.has (point newName commit repo.store) (Ref.key oldName) = true :=
    (MemoryStore.has_congr hkept).trans (isStored_iff.1 hold).2
  have hdelete := delete_eq hstill
  cases wasCurrent with
  | true => exact move_of_current hwrite hdelete (setHead_eq _ newName)
  | false => exact move_of_not_current hwrite hdelete

theorem rename_occurs (repo : Repository MemoryStore) (oldName newName : String) :
    (∃ error, rename oldName newName repo = (.error error, repo)) ∨
    ∃ wasCurrent after, rename oldName newName repo =
        (.ok (), ⟨after, repo.published ++ [.renamed oldName newName wasCurrent]⟩) ∧
      Occurs Allowed repo.store (.renamed oldName newName wasCurrent) after := by
  rcases rename_cases repo oldName newName with
    ⟨error, -, hrefused⟩ | ⟨active, commit, hvalid, hold, hnew, hresolve, hcurrent, hrename⟩
  · exact .inl ⟨error, hrefused⟩
  · exact .inr ⟨_, _, hrename.trans (move_eq hvalid hold hnew commit _),
      .renamed hvalid hold hnew hresolve hcurrent⟩

/-- A command fails and changes nothing, or has an effect and publishes its events. -/
theorem operation_cases (repo : Repository MemoryStore) (command : BranchCommand)
    (hread : ∀ commit, IsTrimmed commit → Allowed commit)
    (hgiven : ∀ name base, command = .create name (some base) →
      (command.operation repo).1 = .ok () → Allowed base) :
    (∃ error, command.operation repo = (.error error, repo)) ∨
    ∃ told after, command.operation repo = (.ok (), ⟨after, repo.published ++ told⟩) ∧
      Effect Allowed repo.store command told after := by
  cases command with
  | create name base =>
      have hallowed (commit : String)
          (h : IsTrimmed commit ∨ base = some commit ∧ (create name base repo).1 = .ok ()) :
          Allowed commit := by
        rcases h with htrimmed | ⟨rfl, haccepted⟩
        · exact hread commit htrimmed
        · exact hgiven name commit rfl haccepted
      rcases create_occurs repo name base hallowed with hrefused | ⟨commit, hcreate, hoccurs⟩
      · exact .inl hrefused
      · exact .inr ⟨_, _, hcreate, .create hoccurs⟩
  | checkout name createMissing => exact checkout_effect repo name createMissing hread
  | remove name force =>
      rcases remove_occurs repo name force with hrefused | ⟨commit, hremove, hoccurs⟩
      · exact .inl hrefused
      · exact .inr ⟨_, _, hremove, .remove hoccurs⟩
  | rename oldName newName =>
      rcases rename_occurs repo oldName newName with hrefused | ⟨wasCurrent, after, hrename, hoccurs⟩
      · exact .inl hrefused
      · exact .inr ⟨_, _, hrename, .rename hoccurs⟩

/-- The cases of a command when nothing is asked of the texts that branches start at. -/
theorem operation_cases_any (repo : Repository MemoryStore) (command : BranchCommand) :
    (∃ error, command.operation repo = (.error error, repo)) ∨
    ∃ told after, command.operation repo = (.ok (), ⟨after, repo.published ++ told⟩) ∧
      Effect (fun _ => True) repo.store command told after :=
  operation_cases repo command (fun _ _ => trivial) fun _ _ _ _ => trivial

end VersionControl.Branch
