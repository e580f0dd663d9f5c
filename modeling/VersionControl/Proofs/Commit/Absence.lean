import VersionControl.Commit.Command
import VersionControl.Proofs.Commit.Walk
import VersionControl.Proofs.Store.Backend

/-!
# Commits that are missing

Every call on commits asks in its own way whether a commit is stored. They agree in the answer: who starts at a missing
commit is refused with its hash, who is refused with a hash has come upon it and not found it, and who has answered for
a whole history has found all of it.
-/

namespace VersionControl

/-- A digest is taken of one commit alone, so that none fails because another is missing. -/
def CommitFormat.IsSelfContained (format : CommitFormat) : Prop :=
  ∀ commit hash, format.digest commit ≠ .error (.commitNotFound hash)

/-- Digests are written without NULs. -/
def CommitFormat.IsUnbroken (format : CommitFormat) : Prop :=
  ∀ commit digest, format.digest commit = .ok digest → '\x00' ∉ digest.toList

namespace Commit

variable {σ : Type} [ObjectStore σ] {format : CommitFormat} {store : σ} {backend after : Backend} {commit : Commit}
  {stop : Commit → Bool} {start hash named parent : String}

/-! ## Starting at a missing commit -/

theorem load_of_missing (h : isStored store hash = false) :
    load format store hash = .error (.commitNotFound hash) := by
  rw [load, h]
  rfl

theorem walkFrom_of_missing (h : isStored store hash = false) :
    walkFrom format store stop hash = .error (.commitNotFound hash) := by
  rw [walkFrom, walkBudget, walk, load_of_missing h]
  rfl

theorem log_of_missing (hne : hash ≠ "") (h : isStored store hash = false) (limit : Nat) :
    log format store hash limit = .error (.commitNotFound hash) := by
  obtain ⟨budget, hbudget⟩ : ∃ budget, (if limit = 0 then walkBudget store else limit) = budget + 1 := by
    cases limit with
    | zero => exact ⟨ObjectStore.objectCount store, rfl⟩
    | succ limit => exact ⟨limit, rfl⟩
  rw [log, hbudget, firstParents, if_neg hne, load_of_missing h]
  rfl

theorem isAncestor_of_missing (h : isStored store hash = false) (ancestor : String) :
    isAncestor format store ancestor hash = .error (.commitNotFound hash) := by
  rw [isAncestor, walkFrom_of_missing h]
  rfl

theorem mergeBase?_of_missing (h : isStored store hash = false) (other : String) :
    mergeBase? format store hash other = .error (.commitNotFound hash) := by
  rw [mergeBase?, walkFrom_of_missing h]
  rfl

/-! ## Saving -/

theorem save_of_has (h : ObjectStore.has store (key commit.hash) = true) :
    save format commit store = (.ok (), store) := by
  simp [save, h]

theorem save_of_orphan (hnew : ObjectStore.has store (key commit.hash) = false)
    (hmissing : commit.parents.find? (!isStored store ·) = some parent) :
    save format commit store = (.error (.commitNotFound parent), store) := by
  simp [save, hnew, hmissing]

theorem save_of_parents (hnew : ObjectStore.has store (key commit.hash) = false)
    (hmissing : commit.parents.find? (!isStored store ·) = none) :
    save format commit store = ObjectStore.write (key commit.hash) (format.encode commit) store := by
  simp [save, hnew, hmissing]

/-! ## What a refusal names -/

theorem missing_of_load (hformat : format.IsSelfContained)
    (h : load format backend hash = .error (.commitNotFound named)) :
    named = hash ∧ isStored backend hash = false := by
  cases hstored : isStored backend hash with
  | false =>
      rw [load_of_missing hstored] at h
      cases h
      exact ⟨rfl, rfl⟩
  | true =>
      rw [load, hstored] at h
      rcases bind_eq_error h with hread | ⟨text, -, h⟩
      · cases Backend.kind_of_read hread
      · split at h
        case h_1 => cases h
        case h_2 =>
          rcases bind_eq_error h with hdigest | ⟨digest, -, h⟩
          · exact absurd hdigest (hformat _ _)
          · split at h <;> cases h

theorem FailsIn.missing (hformat : format.IsSelfContained) (h : FailsIn format backend start (.commitNotFound named)) :
    InHistory format backend start named ∧ isStored backend named = false := by
  obtain ⟨hash, hhistory, hload⟩ := h
  obtain ⟨rfl, hmissing⟩ := missing_of_load hformat hload
  exact ⟨hhistory, hmissing⟩

theorem missing_of_save (h : save format commit backend = (.error (.commitNotFound named), after)) :
    after = backend ∧ named ∈ commit.parents ∧ isStored backend named = false := by
  cases hstored : ObjectStore.has backend (key commit.hash) with
  | true =>
      rw [save_of_has hstored] at h
      cases h
  | false =>
      cases hmissing : commit.parents.find? (!isStored backend ·) with
      | some parent =>
          rw [save_of_orphan hstored hmissing] at h
          cases h
          exact ⟨rfl, List.mem_of_find?_eq_some hmissing, by simpa using List.find?_some hmissing⟩
      | none =>
          rw [save_of_parents hstored hmissing] at h
          cases Backend.kind_of_write (congrArg Prod.fst h)

/-! ## What fits into a walk -/

theorem key_injective : Function.Injective key := fun _ _ h =>
  String.toList_injective (by simpa [key] using congrArg String.toList h)

/-- A commit loads under its own digest only, and so there are no more of them than objects. -/
theorem bounds_objectCount (hformat : format.IsUnbroken) (backend : Backend) :
    Bounds (ObjectStore.objectCount backend) format backend := by
  intro hashes hnodup hloads
  have hkeys : ∀ held ∈ hashes.map key, ObjectStore.has backend held = true ∧ '\x00' ∉ held.toList := by
    refine List.forall_mem_map.2 fun hash hmem => ?_
    obtain ⟨commit, hload⟩ := hloads hash hmem
    obtain ⟨hstored, hdigest⟩ := load_eq_ok hload
    refine ⟨(Bool.and_eq_true_iff.1 hstored).2, ?_⟩
    rw [key, String.toList_append, List.mem_append]
    exact fun h => h.elim (by decide) (hformat _ _ hdigest)
  have hle := Backend.length_le_objectCount (hnodup.map key_injective) (fun held h => (hkeys held h).1)
    fun held h => (hkeys held h).2
  rwa [List.length_map] at hle

end Commit

namespace CommitCommand

open Commit (InHistory isStored key map_eq_error map_eq_ok)

variable {σ : Type} [ObjectStore σ] {format : CommitFormat} {store saved : σ} {backend after : Backend}
  {commit : Commit} {error : Error} {start hash named : String} {command : CommitCommand} {answer : CommitAnswer}

/-! ## Commands -/

/-- The command is refused because the commit is missing, and leaves the store as it is. -/
def IsRefused (format : CommitFormat) (store : σ) (command : CommitCommand) (hash : String) : Prop :=
  command.operation format store = (.error (.commitNotFound hash), store)

/-- The hash is one that the command has to look for. -/
inductive ComesUpon (format : CommitFormat) (store : σ) : CommitCommand → String → Prop
  | save {commit : Commit} {parent : String} : parent ∈ commit.parents → ComesUpon format store (.save commit) parent
  | load {hash : String} : ComesUpon format store (.load hash) hash
  | log {start hash : String} {limit : Nat} :
      InHistory format store start hash → ComesUpon format store (.log start limit) hash
  | isAncestor {ancestor descendant hash : String} :
      InHistory format store descendant hash → ComesUpon format store (.isAncestor ancestor descendant) hash
  | mergeBaseLeft {a b hash : String} : InHistory format store a hash → ComesUpon format store (.mergeBase a b) hash
  | mergeBaseRight {a b hash : String} : InHistory format store b hash → ComesUpon format store (.mergeBase a b) hash

/-- The answer is one about the whole history from the hash on. -/
inductive Covers : CommitCommand → CommitAnswer → String → Prop
  | unrelated {ancestor descendant : String} : Covers (.isAncestor ancestor descendant) (.related false) descendant
  | mergeBaseLeft {a b : String} {base : Option String} : Covers (.mergeBase a b) (.base base) a
  | mergeBaseRight {a b : String} : Covers (.mergeBase a b) (.base none) b

theorem operation_save_of_error (h : Commit.save format commit store = (.error error, saved)) :
    (save commit).operation format store = (.error error, saved) := by
  simp [operation, h]

theorem save_of_operation (h : (save commit).operation format store = (.error error, saved)) :
    Commit.save format commit store = (.error error, saved) := by
  cases hsave : Commit.save format commit store with
  | mk outcome after => cases outcome <;> simp_all [operation]

theorem missing_of_operation (hformat : format.IsSelfContained)
    (h : command.operation format backend = (.error (.commitNotFound named), after)) :
    after = backend ∧ ComesUpon format backend command named ∧ isStored backend named = false := by
  cases command with
  | save commit =>
      obtain ⟨rfl, hparent, hmissing⟩ := Commit.missing_of_save (save_of_operation h)
      exact ⟨rfl, .save hparent, hmissing⟩
  | load hash =>
      obtain ⟨hload, rfl⟩ := Prod.mk.inj h
      obtain ⟨rfl, hmissing⟩ := Commit.missing_of_load hformat (map_eq_error hload)
      exact ⟨rfl, .load, hmissing⟩
  | log start limit =>
      obtain ⟨hlog, rfl⟩ := Prod.mk.inj h
      obtain ⟨hhistory, hmissing⟩ := (Commit.failsIn_of_firstParents (map_eq_error hlog)).missing hformat
      exact ⟨rfl, .log hhistory, hmissing⟩
  | isAncestor ancestor descendant =>
      obtain ⟨hanswer, rfl⟩ := Prod.mk.inj h
      obtain ⟨hhistory, hmissing⟩ := (Commit.failsIn_of_isAncestor (map_eq_error hanswer)).missing hformat
      exact ⟨rfl, .isAncestor hhistory, hmissing⟩
  | mergeBase a b =>
      obtain ⟨hanswer, rfl⟩ := Prod.mk.inj h
      rcases Commit.failsIn_of_mergeBase? (map_eq_error hanswer) with hfails | hfails
      · obtain ⟨hhistory, hmissing⟩ := hfails.missing hformat
        exact ⟨rfl, .mergeBaseLeft hhistory, hmissing⟩
      · obtain ⟨hhistory, hmissing⟩ := hfails.missing hformat
        exact ⟨rfl, .mergeBaseRight hhistory, hmissing⟩

theorem isStored_of_operation (hformat : format.IsUnbroken)
    (h : command.operation format backend = (.ok answer, after)) (hcovers : Covers command answer start)
    (hhistory : InHistory format backend start hash) : isStored backend hash = true := by
  have hcount := Commit.bounds_objectCount hformat backend
  have hloads : ∃ commit, Commit.load format backend hash = .ok commit := by
    cases hcovers with
    | unrelated =>
        obtain ⟨related, hanswer, heq⟩ := map_eq_ok (congrArg Prod.fst h)
        cases heq
        exact Commit.loads_of_isAncestor hcount hanswer hhistory
    | mergeBaseLeft =>
        obtain ⟨base, hanswer, -⟩ := map_eq_ok (congrArg Prod.fst h)
        exact Commit.loads_of_mergeBase? hcount hanswer hhistory
    | mergeBaseRight =>
        obtain ⟨base, hanswer, heq⟩ := map_eq_ok (congrArg Prod.fst h)
        cases heq
        exact Commit.loads_of_mergeBase?_none hcount hanswer hhistory
  obtain ⟨commit, hload⟩ := hloads
  exact (Commit.load_eq_ok hload).1

theorem isRefused_save (hnew : ObjectStore.has store (key commit.hash) = false)
    (hmissing : ∃ parent ∈ commit.parents, isStored store parent = false) :
    ∃ before parent rest, commit.parents = before ++ parent :: rest ∧
      (∀ other ∈ before, isStored store other = true) ∧ isStored store parent = false ∧
      IsRefused format store (.save commit) parent := by
  have hfound : (commit.parents.find? (!isStored store ·)).isSome := by
    simpa [List.find?_isSome] using hmissing
  obtain ⟨parent, hparent⟩ := Option.isSome_iff_exists.1 hfound
  obtain ⟨hnot, before, rest, hparents, hbefore⟩ := List.find?_eq_some_iff_append.1 hparent
  refine ⟨before, parent, rest, hparents, by simpa using hbefore, by simpa using hnot, ?_⟩
  exact operation_save_of_error (Commit.save_of_orphan hnew hparent)

/-! ## Agreement -/

/-- The calls on commits agree about which commits are missing. -/
structure AgreesOnAbsence (format : CommitFormat) (store : σ) : Prop where
  load : ∀ hash, isStored store hash = false → IsRefused format store (.load hash) hash
  log : ∀ hash limit, hash ≠ "" → isStored store hash = false → IsRefused format store (.log hash limit) hash
  log_empty : ∀ limit, (CommitCommand.log "" limit).operation format store = (.ok (.history []), store)
  isAncestor : ∀ ancestor hash, isStored store hash = false →
    IsRefused format store (.isAncestor ancestor hash) hash
  mergeBase : ∀ hash other, isStored store hash = false → IsRefused format store (.mergeBase hash other) hash
  save : ∀ commit : Commit, ObjectStore.has store (key commit.hash) = false →
    (∃ parent ∈ commit.parents, isStored store parent = false) →
    ∃ before parent rest, commit.parents = before ++ parent :: rest ∧
      (∀ other ∈ before, isStored store other = true) ∧ isStored store parent = false ∧
      IsRefused format store (.save commit) parent
  save_again : ∀ commit : Commit, ObjectStore.has store (key commit.hash) = true →
    (CommitCommand.save commit).operation format store = (.ok .saved, store)
  /-- Who names a missing commit has looked for it in vain and changed nothing. -/
  named : format.IsSelfContained → ∀ command hash after,
    CommitCommand.operation format command store = (.error (.commitNotFound hash), after) →
      after = store ∧ ComesUpon format store command hash ∧ isStored store hash = false
  /-- Who answers for a whole history has found every commit of it. -/
  covered : format.IsUnbroken → ∀ command answer after start hash,
    CommitCommand.operation format command store = (.ok answer, after) → Covers command answer start →
      InHistory format store start hash → isStored store hash = true

/-- Whatever a backend holds, and whether the hashes are such as it can store or not. -/
theorem agreesOnAbsence (format : CommitFormat) (backend : Backend) : AgreesOnAbsence format backend where
  load hash h := by simp [IsRefused, operation, Commit.load_of_missing h]
  log hash limit hne h := by simp [IsRefused, operation, Commit.log_of_missing hne h]
  log_empty limit := by simp [operation, Commit.log, Commit.firstParents_empty]
  isAncestor ancestor hash h := by simp [IsRefused, operation, Commit.isAncestor_of_missing h]
  mergeBase hash other h := by simp [IsRefused, operation, Commit.mergeBase?_of_missing h]
  save commit hnew hmissing := isRefused_save hnew hmissing
  save_again commit h := by simp [operation, Commit.save_of_has h]
  named hformat command hash after h := missing_of_operation hformat h
  covered hformat command answer after start hash h hcovers hhistory :=
    isStored_of_operation hformat h hcovers hhistory

/-- Writes down the hash and the parents of a commit only, and takes the hash for its digest. -/
def hashesOnly : CommitFormat where
  encode commit := " ".intercalate (commit.hash :: commit.parents)
  decode text := .ok ⟨(Text.split ' ' text).headD "", (Text.split ' ' text).tail, "", "", 0, ⟨"null"⟩⟩
  digest commit := .ok (String.ofList (commit.hash.toList.filter (· ≠ '\x00')))

/-- Something stands under the key of the empty hash, and of three commits the first one has lost a parent. -/
theorem agreesOnAbsence_of_lost_parent :
    let backend : Backend := .memory ⟨.ofList
      [("commits/", ""), ("commits/c1", "c1 c0 c2"), ("commits/c2", "c2"), ("commits/c3", "c3 c2")]⟩
    isStored backend "" = false ∧ IsRefused hashesOnly backend (.load "") "" ∧
      (save ⟨"", ["c9"], "", "", 0, ⟨"null"⟩⟩).operation hashesOnly backend = (.ok .saved, backend) ∧
      IsRefused hashesOnly backend (.mergeBase "c1" "c1") "c0" ∧
      ComesUpon hashesOnly backend (.mergeBase "c1" "c1") "c0" ∧
      (isAncestor "c1" "c3").operation hashesOnly backend = (.ok (.related false), backend) ∧
      InHistory hashesOnly backend "c3" "c2" ∧ isStored backend "c2" = true := by
  intro backend
  have hagrees := agreesOnAbsence hashesOnly backend
  have hempty : isStored backend "" = false := rfl
  have hself : hashesOnly.IsSelfContained := fun _ _ h => by cases h
  have hunbroken : hashesOnly.IsUnbroken := by
    rintro commit digest hdigest
    cases hdigest
    simp
  have hlost : IsRefused hashesOnly backend (.mergeBase "c1" "c1") "c0" := by
    rw [IsRefused]
    decide +kernel
  have hunrelated : (isAncestor "c1" "c3").operation hashesOnly backend = (.ok (.related false), backend) := by
    decide +kernel
  have hhistory : InHistory hashesOnly backend "c3" "c2" :=
    .single ⟨⟨"c3", ["c2"], "", "", 0, ⟨"null"⟩⟩, by decide +kernel, List.mem_singleton_self "c2"⟩
  exact ⟨hempty, hagrees.load "" hempty, hagrees.save_again _ rfl, hlost, (hagrees.named hself _ _ _ hlost).2.1,
    hunrelated, hhistory, hagrees.covered hunbroken _ _ _ _ _ hunrelated .unrelated hhistory⟩

end CommitCommand

end VersionControl
