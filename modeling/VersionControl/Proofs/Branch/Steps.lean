import Mathlib.Logic.Relation
import VersionControl.Proofs.Branch.Occurrence

/-!
# Steps

In memory every event comes down to steps that change a single key: a branch is pointed, a branch is dropped,
HEAD enters a branch. What all three keep is kept by every run of commands.
-/

namespace VersionControl.Branch

open Relation (ReflTransGen)

/-- A step changes one key; a branch may be pointed at any text that `Allowed` holds of. -/
inductive Step (Allowed : String → Prop) (store : MemoryStore) : MemoryStore → Prop
  | point {name commit : String} : BranchName.isValid name = true → isStored store name = false →
      Allowed commit → Step Allowed store ⟨store.objects.insert (Ref.key name) (commit ++ "\n")⟩
  | drop {name commit : String} : BranchName.isValid name = true → Ref.resolve store name = .ok commit →
      Step Allowed store ⟨store.objects.erase (Ref.key name)⟩
  | enter {name : String} : BranchName.isValid name = true →
      Step Allowed store ⟨store.objects.insert Head.name (Head.symbolic name).encode⟩

variable {Allowed : String → Prop} {repo : Repository MemoryStore} {store after : MemoryStore} {event : BranchEvent}

theorem steps_of_occurs (hread : ∀ commit, IsTrimmed commit → Allowed commit)
    (h : Occurs Allowed store event after) : ReflTransGen (Step Allowed) store after := by
  cases h with
  | created hvalid hnew hallowed => exact .single (.point hvalid hnew hallowed)
  | deleted hvalid hresolve => exact .single (.drop hvalid hresolve)
  | checkedOut hstored => exact .single (.enter (isStored_iff.1 hstored).1)
  | @renamed oldName newName commit active hvalid hold hnew hresolve =>
      have holdValid := (isStored_iff.1 hold).1
      have hkept : (point newName commit store).objects.get? (Ref.key oldName) =
          store.objects.get? (Ref.key oldName) := by
        simp [(ne_of_isStored hold hnew).symm]
      have hsame := (Ref.resolve_of_get?_eq (BranchName.ne_head holdValid) hkept).trans hresolve
      have hpoint : Step Allowed store (point newName commit store) :=
        .point hvalid hnew (hread commit (Ref.trimPointer_of_resolve hresolve))
      have hmoved := ReflTransGen.tail (.single hpoint) (.drop holdValid hsame)
      rw [moveTo]
      split
      · exact hmoved.tail (.enter hvalid)
      · exact hmoved

/-- Whatever a command does to the store, it does by steps. -/
theorem steps_of_operation (command : BranchCommand)
    (hread : ∀ commit, IsTrimmed commit → Allowed commit)
    (hcreate : ∀ name base, command = .create name (some base) →
      (command.operation repo).1 = .ok () → Allowed base) :
    ReflTransGen (Step Allowed) repo.store (command.operation repo).2.store := by
  rcases operation_cases repo command hread hcreate with ⟨error, hrefused⟩ | ⟨told, after, hdone, heffect⟩
  · rw [hrefused]
  · rw [hdone]
    cases heffect with
    | create h | checkout h | remove h | rename h => exact steps_of_occurs hread h
    | checkoutNew hcreated h => exact (steps_of_occurs hread hcreated).trans (steps_of_occurs hread h)

theorem steps_of_run (commands : List BranchCommand)
    (hpointer : ∀ commit, IsPointer commit → Allowed commit)
    (hcreate : ∀ before name base after, commands = before ++ .create name (some base) :: after →
      (create name (some base) (BranchCommand.run before repo)).1 = .ok () → Allowed base) :
    ReflTransGen (Step Allowed) repo.store (BranchCommand.run commands repo).store := by
  induction commands generalizing repo with
  | nil => exact .refl
  | cons command rest ih =>
      have hfirst : ReflTransGen (Step Allowed) repo.store (command.operation repo).2.store :=
        steps_of_operation command (fun _ h => hpointer _ h.isPointer) fun name base heq haccepted => by
          subst heq
          exact hcreate [] name base rest rfl haccepted
      refine hfirst.trans (ih fun before name base after heq haccepted => ?_)
      exact hcreate (command :: before) name base after (by rw [heq]; rfl) haccepted

theorem steps_of_run_any (commands : List BranchCommand) :
    ReflTransGen (Step fun _ => True) repo.store (BranchCommand.run commands repo).store :=
  steps_of_run commands (fun _ _ => trivial) fun _ _ _ _ _ _ => trivial

end VersionControl.Branch
