import Mathlib.Data.List.Nodup
import Mathlib.Logic.Relation
import VersionControl.Commit

/-!
# Walks along parents

A walk fails only where a commit of the history does not load. One that is never stopped has gone through the whole
history: its budget is no bound, since it loads each commit once and no more commits than are stored.
-/

namespace VersionControl.Commit

open Relation (ReflTransGen)

variable {σ : Type} [ObjectStore σ] {format : CommitFormat} {store : σ} {stop : Commit → Bool} {commit : Commit}
  {commits : List Commit} {budget : Nat} {queue met parents : List String} {start hash parent : String}
  {error : Error}

/-! ## Answers and failures -/

section Results

variable {α β : Type} {t : Except Error α} {b : β}

theorem bind_eq_error {f : α → Except Error β} (h : t >>= f = .error error) :
    t = .error error ∨ ∃ a, t = .ok a ∧ f a = .error error := by
  cases t with
  | error cause =>
      cases h
      exact .inl rfl
  | ok a => exact .inr ⟨a, rfl, h⟩

theorem bind_eq_ok {f : α → Except Error β} (h : t >>= f = .ok b) :
    ∃ a, t = .ok a ∧ f a = .ok b := by
  cases t with
  | error cause => cases h
  | ok a => exact ⟨a, rfl, h⟩

theorem map_eq_error {f : α → β} (h : f <$> t = .error error) : t = .error error := by
  cases t with
  | error cause =>
      cases h
      rfl
  | ok a => cases h

theorem map_eq_ok {f : α → β} (h : f <$> t = .ok b) :
    ∃ a, t = .ok a ∧ f a = b := by
  cases t with
  | error cause => cases h
  | ok a => exact ⟨a, rfl, Except.ok.inj h⟩

end Results

/-! ## Histories -/

/-- The commit loads and names the parent. -/
def HasParent (format : CommitFormat) (store : σ) (hash parent : String) : Prop :=
  ∃ commit, load format store hash = .ok commit ∧ parent ∈ commit.parents

/-- The hash is that of the first commit or of an ancestor of it, there or not. -/
def InHistory (format : CommitFormat) (store : σ) : (start hash : String) → Prop :=
  ReflTransGen (HasParent format store)

/-- Some commit of the history fails to load, and in this way. -/
def FailsIn (format : CommitFormat) (store : σ) (start : String) (error : Error) : Prop :=
  ∃ hash, InHistory format store start hash ∧ load format store hash = .error error

theorem FailsIn.of_load (h : load format store hash = .error error) : FailsIn format store hash error :=
  ⟨hash, .refl, h⟩

theorem FailsIn.of_parent (hload : load format store hash = .ok commit) (hparent : parent ∈ commit.parents)
    (h : FailsIn format store parent error) : FailsIn format store hash error := by
  obtain ⟨other, hhistory, herror⟩ := h
  exact ⟨other, .head ⟨commit, hload, hparent⟩ hhistory, herror⟩

theorem load_eq_ok (h : load format store hash = .ok commit) :
    isStored store hash = true ∧ format.digest commit = .ok hash := by
  cases hstored : isStored store hash with
  | false =>
      rw [load, hstored] at h
      cases h
  | true =>
      rw [load, hstored] at h
      obtain ⟨text, -, h⟩ := bind_eq_ok h
      split at h
      case h_1 => cases h
      case h_2 =>
        obtain ⟨digest, hdigest, h⟩ := bind_eq_ok h
        split at h
        case isTrue hsame =>
          cases h
          simp only [Bool.and_eq_true, decide_eq_true_eq] at hsame
          exact ⟨rfl, hsame.1 ▸ hdigest⟩
        case isFalse => cases h

/-! ## Meeting parents -/

theorem mem_meet : hash ∈ meet met parents ↔ hash ∈ parents ∧ hash ∉ met := by
  induction parents generalizing met with
  | nil => simp [meet]
  | cons parent rest ih =>
      rw [meet]
      split
      case isTrue hmet =>
        rw [List.contains_iff_mem] at hmet
        rw [ih, List.mem_cons]
        constructor
        · exact fun h => ⟨.inr h.1, h.2⟩
        · rintro ⟨rfl | hrest, hnot⟩
          · exact absurd hmet hnot
          · exact ⟨hrest, hnot⟩
      case isFalse hmet =>
        rw [List.contains_iff_mem] at hmet
        rw [List.mem_cons, ih, List.mem_cons, List.mem_cons, not_or]
        by_cases heq : hash = parent
        · simp [heq, hmet]
        · simp [heq]

theorem nodup_meet (met parents : List String) : (meet met parents).Nodup := by
  induction parents generalizing met with
  | nil => exact List.nodup_nil
  | cons parent rest ih =>
      rw [meet]
      split
      case isTrue => exact ih met
      case isFalse =>
        refine List.nodup_cons.2 ⟨fun hmem => ?_, ih _⟩
        exact (mem_meet.1 hmem).2 List.mem_cons_self

/-! ## Where walks fail -/

/-- A walk comes to nothing but the histories of what is in its queue. -/
theorem failsIn_of_walk (h : walk format store stop budget queue met = .error error) :
    ∃ start ∈ queue, FailsIn format store start error := by
  induction budget, queue, met using walk.induct with
  | case1 => cases h
  | case2 budget met hpos =>
      cases budget with
      | zero => cases h
      | succ budget => cases h
  | case3 budget hash queue met ih =>
      rw [walk] at h
      rcases bind_eq_error h with hload | ⟨commit, hload, h⟩
      · exact ⟨hash, List.mem_cons_self, .of_load hload⟩
      · split at h
        · cases h
        · rcases bind_eq_error h with hrest | ⟨commits, -, h⟩
          · obtain ⟨start, hstart, hfails⟩ := ih commit hrest
            rcases List.mem_append.1 hstart with hqueue | hfresh
            · exact ⟨start, List.mem_cons_of_mem _ hqueue, hfails⟩
            · exact ⟨hash, List.mem_cons_self, hfails.of_parent hload (mem_meet.1 hfresh).1⟩
          · cases h

theorem failsIn_of_walkFrom (h : walkFrom format store stop start = .error error) :
    FailsIn format store start error := by
  obtain ⟨first, hfirst, hfails⟩ := failsIn_of_walk h
  rwa [List.mem_singleton.1 hfirst] at hfails

theorem firstParents_empty (format : CommitFormat) (store : σ) (budget : Nat) :
    firstParents format store budget "" = .ok [] := by
  cases budget <;> rfl

theorem failsIn_of_firstParents (h : firstParents format store budget start = .error error) :
    FailsIn format store start error := by
  induction budget, start using firstParents.induct with
  | case1 => cases h
  | case2 => cases h
  | case3 budget hash hne ih =>
      rw [firstParents, if_neg hne] at h
      rcases bind_eq_error h with hload | ⟨commit, hload, h⟩
      · exact .of_load hload
      · rcases bind_eq_error h with hrest | ⟨commits, -, h⟩
        · cases hparent : commit.parents.head? with
          | none =>
              rw [hparent, Option.getD_none, firstParents_empty] at hrest
              cases hrest
          | some parent =>
              have hfails := ih commit hrest
              rw [hparent, Option.getD_some] at hfails
              exact hfails.of_parent hload (List.mem_of_head? hparent)
        · cases h

theorem failsIn_of_isAncestor {ancestor : String} (h : isAncestor format store ancestor start = .error error) :
    FailsIn format store start error := by
  rcases bind_eq_error h with hwalk | ⟨commits, -, h⟩
  · exact failsIn_of_walkFrom hwalk
  · cases h

theorem failsIn_of_mergeBase? {a b : String} (h : mergeBase? format store a b = .error error) :
    FailsIn format store a error ∨ FailsIn format store b error := by
  rcases bind_eq_error h with hwalk | ⟨commits, -, h⟩
  · exact .inl (failsIn_of_walkFrom hwalk)
  · rcases bind_eq_error h with hwalk | ⟨commits, -, h⟩
    · exact .inr (failsIn_of_walkFrom hwalk)
    · cases h

/-! ## What walks go through -/

/-- All of them load, and the parents of each have been found. -/
def IsClosed (format : CommitFormat) (store : σ) (hashes found : List String) : Prop :=
  ∀ hash ∈ hashes, ∃ commit, load format store hash = .ok commit ∧ ∀ parent ∈ commit.parents, parent ∈ found

theorem IsClosed.loads {hashes found : List String} (h : IsClosed format store hashes found) (hmem : hash ∈ hashes) :
    ∃ commit, load format store hash = .ok commit :=
  (h hash hmem).imp fun _ h => h.1

/-- How far a walk has come: what it has loaded stands before its queue, and nothing was met twice. -/
structure HasWalked (format : CommitFormat) (store : σ) (done queue : List String) : Prop where
  closed : IsClosed format store done (done ++ queue)
  nodup : (done ++ queue).Nodup

theorem met_eq (done queue fresh : List String) (hash : String) :
    done ++ hash :: queue ++ fresh = done ++ [hash] ++ (queue ++ fresh) := by simp

theorem HasWalked.step {done : List String} (h : HasWalked format store done (hash :: queue))
    (hload : load format store hash = .ok commit) :
    HasWalked format store (done ++ [hash]) (queue ++ meet (done ++ hash :: queue) commit.parents) where
  closed := by
    rw [← met_eq]
    intro other hother
    rcases List.mem_append.1 hother with hbefore | hlast
    · obtain ⟨found, hfound, hparents⟩ := h.closed other hbefore
      exact ⟨found, hfound, fun parent hparent => List.mem_append_left _ (hparents parent hparent)⟩
    · rw [List.mem_singleton.1 hlast]
      refine ⟨commit, hload, fun parent hparent => ?_⟩
      by_cases hmet : parent ∈ done ++ hash :: queue
      · exact List.mem_append_left _ hmet
      · exact List.mem_append_right _ (mem_meet.2 ⟨hparent, hmet⟩)
  nodup := by
    rw [← met_eq]
    exact List.nodup_append.2 ⟨h.nodup, nodup_meet _ _, fun a ha b hb heq => (mem_meet.1 hb).2 (heq ▸ ha)⟩

/-- No more than so many commits load. -/
def Bounds (count : Nat) (format : CommitFormat) (store : σ) : Prop :=
  ∀ hashes : List String, hashes.Nodup → (∀ hash ∈ hashes, ∃ commit, load format store hash = .ok commit) →
    hashes.length ≤ count

/-- A walk that nothing stops comes to the end of its queue before its budget is used up. -/
theorem exists_isClosed_of_walk {count : Nat} {done : List String} (hcount : Bounds count format store)
    (hbudget : count < budget + done.length) (hwalked : HasWalked format store done queue)
    (h : walk format store stop budget queue (done ++ queue) = .ok commits)
    (hstop : ∀ commit ∈ commits, stop commit = false) :
    ∃ found, done ++ queue ⊆ found ∧ IsClosed format store found found := by
  induction budget generalizing done queue commits with
  | zero =>
      have hle := hcount done hwalked.nodup.of_append_left fun _ hmem => hwalked.closed.loads hmem
      omega
  | succ budget ih =>
      cases queue with
      | nil =>
          have hclosed := hwalked.closed
          rw [List.append_nil] at hclosed ⊢
          exact ⟨done, List.Subset.refl _, hclosed⟩
      | cons hash queue =>
          rw [walk] at h
          obtain ⟨commit, hload, h⟩ := bind_eq_ok h
          split at h
          case isTrue hstopped =>
            cases h
            simp [hstop commit List.mem_cons_self] at hstopped
          case isFalse =>
            obtain ⟨rest, hrest, h⟩ := bind_eq_ok h
            cases h
            have hroom : count < budget + (done ++ [hash]).length := by
              rw [List.length_append, List.length_singleton]
              omega
            rw [met_eq] at hrest
            obtain ⟨found, hsubset, hclosed⟩ := ih hroom (hwalked.step hload) hrest fun other hother =>
              hstop other (List.mem_cons_of_mem _ hother)
            refine ⟨found, fun other hother => hsubset ?_, hclosed⟩
            rw [← met_eq]
            exact List.mem_append_left _ hother

/-- Then it has loaded every commit of the history. -/
theorem loads_of_walkFrom (hcount : Bounds (ObjectStore.objectCount store) format store)
    (h : walkFrom format store stop start = .ok commits) (hstop : ∀ commit ∈ commits, stop commit = false)
    (hhistory : InHistory format store start hash) : ∃ commit, load format store hash = .ok commit := by
  have hroom : ObjectStore.objectCount store < walkBudget store + ([] : List String).length := Nat.lt_succ_self _
  have hfirst : HasWalked format store [] [start] := ⟨by simp [IsClosed], List.nodup_singleton start⟩
  obtain ⟨found, hsubset, hclosed⟩ := exists_isClosed_of_walk hcount hroom hfirst h hstop
  have hfound : hash ∈ found := by
    induction hhistory with
    | refl => exact hsubset (List.mem_singleton_self start)
    | @tail here parent _ hstep ih =>
        obtain ⟨commit, hload, hparent⟩ := hstep
        obtain ⟨same, hsame, hparents⟩ := hclosed here ih
        cases hload.symm.trans hsame
        exact hparents parent hparent
  exact hclosed.loads hfound

section Answers

variable {a b ancestor : String} {answer : Option String} (hcount : Bounds (ObjectStore.objectCount store) format store)

include hcount

theorem loads_of_isAncestor (h : isAncestor format store ancestor start = .ok false)
    (hhistory : InHistory format store start hash) : ∃ commit, load format store hash = .ok commit := by
  obtain ⟨commits, hwalk, h⟩ := bind_eq_ok h
  refine loads_of_walkFrom hcount hwalk (fun commit hcommit => ?_) hhistory
  have hnone := Except.ok.inj h
  rw [List.any_eq_false] at hnone
  simpa using hnone commit hcommit

theorem loads_of_mergeBase? (h : mergeBase? format store a b = .ok answer)
    (hhistory : InHistory format store a hash) : ∃ commit, load format store hash = .ok commit := by
  obtain ⟨commits, hwalk, -⟩ := bind_eq_ok h
  exact loads_of_walkFrom hcount hwalk (fun _ _ => rfl) hhistory

theorem loads_of_mergeBase?_none (h : mergeBase? format store a b = .ok none)
    (hhistory : InHistory format store b hash) : ∃ commit, load format store hash = .ok commit := by
  obtain ⟨shared, -, h⟩ := bind_eq_ok h
  obtain ⟨commits, hwalk, h⟩ := bind_eq_ok h
  refine loads_of_walkFrom hcount hwalk (fun commit hcommit => ?_) hhistory
  have hnone := Option.map_eq_none_iff.1 (Except.ok.inj h)
  rw [List.find?_eq_none] at hnone
  simpa using hnone commit hcommit

end Answers

end VersionControl.Commit
