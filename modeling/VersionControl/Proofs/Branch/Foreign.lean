import VersionControl.Commit
import VersionControl.Merge.Record
import VersionControl.Proofs.Branch.Anchor

/-!
# What branches leave alone

The names that commands are given may be any texts. What they come to is stored under HEAD and under the keys of
branches, and nothing that stands under another key is ever touched.
-/

namespace VersionControl.Branch

/-- The key of what is neither HEAD nor a branch: a commit, the record of a merge, a ref with another kind of name. -/
def IsForeign (key : String) : Prop :=
  key ≠ Head.name ∧ ∀ name, BranchName.isValid name = true → key ≠ Ref.key name

variable {Allowed : String → Prop} {store after : MemoryStore} {command : BranchCommand} {told : List BranchEvent}
  {key : String}

/-! ## Keys -/

theorem isForeign_of_head? {c : Char} (hfirst : key.toList.head? = some c) (hhead : c ≠ 'H') (href : c ≠ 'r') :
    IsForeign key := by
  refine ⟨?_, fun name _ => ?_⟩
  · rintro rfl
    exact hhead (Option.some.inj (hfirst.symm.trans rfl))
  · rintro rfl
    have hkey : (Ref.key name).toList.head? = some 'r' := by simp [Ref.key, Ref.directory]
    exact href (Option.some.inj (hfirst.symm.trans hkey))

theorem isForeign_commitKey (hash : String) : IsForeign (Commit.key hash) :=
  isForeign_of_head? (by rw [Commit.key, String.toList_append]; rfl) (by decide) (by decide)

theorem isForeign_recordKey : IsForeign MergeRecord.key := isForeign_of_head? rfl (by decide) (by decide)

/-- A ref is foreign exactly if its name is none that branches may have; one that is called HEAD is, too. -/
theorem isForeign_key_iff {name : String} : IsForeign (Ref.key name) ↔ BranchName.isValid name = false := by
  constructor
  · intro h
    exact Bool.eq_false_iff.2 fun hvalid => h.2 name hvalid rfl
  · rintro h
    refine ⟨Ref.key_ne_head name, fun other hvalid heq => ?_⟩
    rw [Ref.key_injective heq, hvalid] at h
    cases h

/-! ## Commands -/

theorem Effect.get?_of_foreign (h : Effect Allowed store command told after) (hkey : IsForeign key) :
    after.objects.get? key = store.objects.get? key := by
  cases h with
  | create h | checkout h | remove h | rename h => exact h.get?_of_foreign hkey.1 hkey.2
  | checkoutNew hcreated h =>
      exact (h.get?_of_foreign hkey.1 hkey.2).trans (hcreated.get?_of_foreign hkey.1 hkey.2)

theorem get?_operation_of_foreign (command : BranchCommand) (repo : Repository MemoryStore) (hkey : IsForeign key) :
    (command.operation repo).2.store.objects.get? key = repo.store.objects.get? key := by
  rcases operation_cases_any repo command with ⟨error, hrefused⟩ | ⟨told, after, hdone, heffect⟩
  · rw [hrefused]
  · rw [hdone]
    exact heffect.get?_of_foreign hkey

theorem get?_run_of_foreign (commands : List BranchCommand) (repo : Repository MemoryStore) (hkey : IsForeign key) :
    (BranchCommand.run commands repo).store.objects.get? key = repo.store.objects.get? key := by
  induction commands generalizing repo with
  | nil => rfl
  | cons command rest ih =>
      rw [BranchCommand.run_cons, ih]
      exact get?_operation_of_foreign command repo hkey

/-! ## What others see -/

/-- Who has no business with branches finds the store as it was. -/
structure SparesForeign (store after : MemoryStore) : Prop where
  objects : ∀ key, IsForeign key → after.objects.get? key = store.objects.get? key
  commits : ∀ hash, Commit.isStored after hash = Commit.isStored store hash
  merging : MergeRecord.isStored after = MergeRecord.isStored store
  saving : ∀ format commit, (Commit.save format commit after).1 = (Commit.save format commit store).1

/-- A commit is refused exactly if it is new and a parent is missing, and then by the first of those. -/
theorem save_answer (format : CommitFormat) (commit : Commit) (store : MemoryStore) :
    (Commit.save format commit store).1 =
      if ObjectStore.has store (Commit.key commit.hash) then .ok ()
      else match commit.parents.find? (!Commit.isStored store ·) with
        | some parent => .error (.commitNotFound parent)
        | none => .ok () := by
  cases hstored : ObjectStore.has store (Commit.key commit.hash) with
  | true => simp [Commit.save, hstored]
  | false =>
      cases hmissing : commit.parents.find? (!Commit.isStored store ·) with
      | some parent => simp [Commit.save, hstored, hmissing]
      | none =>
          have hplain : Commit.key commit.hash ≠ "" := by simp [Commit.key]
          have hwrite : (ObjectStore.write (Commit.key commit.hash) (format.encode commit) store).1 = .ok () :=
            congrArg Prod.fst (store.write_eq hplain (format.encode commit))
          simp [Commit.save, hstored, hmissing, hwrite]

theorem sparesForeign_of_get? (h : ∀ key, IsForeign key → after.objects.get? key = store.objects.get? key) :
    SparesForeign store after := by
  have hcommit (hash : String) : ObjectStore.has after (Commit.key hash) = ObjectStore.has store (Commit.key hash) :=
    MemoryStore.has_congr (h _ (isForeign_commitKey hash))
  have hcommits (hash : String) : Commit.isStored after hash = Commit.isStored store hash := by
    rw [Commit.isStored, Commit.isStored, hcommit]
  refine ⟨h, hcommits, MemoryStore.has_congr (h _ isForeign_recordKey), fun format commit => ?_⟩
  simp only [save_answer, hcommit, hcommits]

/-- Whatever the commands of a run are given, and whether they are refused or not, what is foreign to branches stays
as it is. -/
theorem sparesForeign_run (commands : List BranchCommand) (repo : Repository MemoryStore) :
    SparesForeign repo.store (BranchCommand.run commands repo).store :=
  sparesForeign_of_get? fun _ hkey => get?_run_of_foreign commands repo hkey

/-- Beside HEAD in `main`: a commit, the record of a merge, and a ref with no branch name. -/
def mainAndOthers : Repository MemoryStore :=
  { store := ⟨.ofList [("HEAD", "ref: main\n"), ("MERGE_STATE", "merge"), ("commits/c1", "first"),
    ("refs/heads/main", "c1\n"), ("refs/heads/main/..", "c9 \n")]⟩ }

/-- Names that lead elsewhere when they are put into keys. -/
def hostileCommands : List BranchCommand :=
  [.create "../../MERGE_STATE" (some "HEAD"), .checkout "HEAD" true, .remove "main/.." true, .rename "main" "",
    .rename "main/.." "dev", .checkout "commits/c1" true, .create "out" (some "main/.."), .remove "main" true]

/-- All keys but those of branches are there after the run as before, and a commit still waits for its parent. -/
theorem sparesForeign_run_of_hostileCommands :
    let after := (BranchCommand.run hostileCommands mainAndOthers).store
    after.objects.keys = ["HEAD", "MERGE_STATE", "commits/c1", "refs/heads/commits/c1", "refs/heads/main/..",
        "refs/heads/out"] ∧
      after.objects.get? "refs/heads/main/.." = some "c9 \n" ∧ Commit.isStored after "c1" = true ∧
      MergeRecord.isStored after = true ∧
      ∀ format, (Commit.save format ⟨"c3", ["c1", "c2"], "", "", 0, ⟨"null"⟩⟩ after).1 =
        .error (.commitNotFound "c2") := by
  intro after
  have hspared := sparesForeign_run hostileCommands mainAndOthers
  have hname : BranchName.isValid "main/.." = false := by decide +kernel
  refine ⟨by decide +kernel, ?_, ?_, hspared.merging, fun format => ?_⟩
  · exact hspared.objects "refs/heads/main/.." (isForeign_key_iff.2 hname)
  · exact hspared.commits "c1"
  · rw [hspared.saving, save_answer]
    rfl

end VersionControl.Branch
