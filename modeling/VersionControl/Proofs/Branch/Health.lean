import VersionControl.Proofs.Branch.Steps

/-!
# Healthy stores

A store is healthy when its branches can be listed, resolved and removed. A run of commands leaves a healthy
store unless it created a branch at a blank text: nothing reads such a branch, so nothing gets rid of it.
-/

namespace VersionControl.Branch

open Relation (ReflTransGen)

/-- What is expected of every store of branches. -/
structure Healthy {σ : Type} [ObjectStore σ] (store : σ) : Prop where
  listed : ∃ branches, list store = .ok branches
  resolved : ∀ name, isStored store name = true → ∃ commit, Ref.resolve store name = .ok commit
  removable : ∀ name published, isStored store name = true → (remove name true ⟨store, published⟩).1 = .ok ()

variable {Allowed : String → Prop} {store after : MemoryStore} {name : String}

/-! ## What holds of every object -/

def Holds (P : String → String → Prop) (store : MemoryStore) : Prop :=
  ∀ key content, store.objects.get? key = some content → P key content

/-- What holds of the objects that changes put in holds of all objects. -/
theorem Step.holds {P : String → String → Prop} (h : Step Allowed store after) (hstore : Holds P store)
    (hbranch : ∀ name commit, BranchName.isValid name = true → Allowed commit →
      P (Ref.key name) (commit ++ "\n"))
    (hhead : ∀ name, P Head.name (Head.symbolic name).encode) : Holds P after := by
  intro key content hget
  cases h with
  | point hvalid _ hallowed =>
      rw [Dict.get?_insert] at hget
      split at hget
      case isTrue heq =>
        cases hget
        exact heq ▸ hbranch _ _ hvalid hallowed
      case isFalse => exact hstore key content hget
  | drop =>
      rw [Dict.get?_erase] at hget
      split at hget
      case isTrue => cases hget
      case isFalse => exact hstore key content hget
  | enter =>
      rw [Dict.get?_insert] at hget
      split at hget
      case isTrue heq =>
        cases hget
        exact heq ▸ hhead _
      case isFalse => exact hstore key content hget

theorem holds_of_steps {P : String → String → Prop} (h : ReflTransGen (Step Allowed) store after)
    (hstore : Holds P store)
    (hbranch : ∀ name commit, BranchName.isValid name = true → Allowed commit →
      P (Ref.key name) (commit ++ "\n"))
    (hhead : ∀ name, P Head.name (Head.symbolic name).encode) : Holds P after := by
  induction h with
  | refl => exact hstore
  | tail _ hstep ih => exact hstep.holds ih hbranch hhead

theorem holds_empty {P : String → String → Prop} : Holds P .empty := by
  intro key content hget
  simp [MemoryStore.empty] at hget

def OnlyBranches : MemoryStore → Prop :=
  Holds fun key _ => key = Head.name ∨ ∃ name, BranchName.isValid name = true ∧ key = Ref.key name

theorem onlyBranches_of_steps (h : ReflTransGen (Step Allowed) store after) (honly : OnlyBranches store) :
    OnlyBranches after :=
  holds_of_steps h honly (fun name _ hvalid _ => .inr ⟨name, hvalid, rfl⟩) fun _ => .inl rfl

def Readable : MemoryStore → Prop := Holds fun _ content => IsPointer content

theorem readable_of_steps (h : ReflTransGen (Step IsPointer) store after) (hreadable : Readable store) :
    Readable after := by
  refine holds_of_steps h hreadable (fun _ commit _ hpointer => ?_) Ref.trimPointer_encode_ne_empty
  rwa [IsPointer, Ref.trimPointer_newline]

/-! ## Readable stores -/

theorem Readable.readPointer (h : Readable store) {key : String} (hstored : ObjectStore.has store key = true)
    (name : String) : ∃ pointer, Ref.readPointer store key name = .ok pointer := by
  obtain ⟨content, hget⟩ := MemoryStore.has_iff.1 hstored
  exact ⟨_, Ref.readPointer_of_read hstored (MemoryStore.read_of_get? hget) (h key content hget)⟩

theorem Readable.resolve (h : Readable store) (hstored : isStored store name = true) :
    ∃ commit, Ref.resolve store name = .ok commit := by
  obtain ⟨hvalid, hhas⟩ := isStored_iff.1 hstored
  rw [Ref.resolve_of_ne_head (BranchName.ne_head hvalid)]
  exact h.readPointer hhas name

theorem Readable.current (h : Readable store) : ∃ active, current store = .ok active := by
  cases hstored : ObjectStore.has store Head.name with
  | false =>
      refine ⟨none, ?_⟩
      rw [Branch.current, if_neg (by simp [hstored])]
      rfl
  | true =>
      obtain ⟨pointer, hpointer⟩ := h.readPointer hstored Head.name
      exact current_of_readPointer hpointer

theorem isStored_of_mem_names (honly : OnlyBranches store) {names : List String}
    (hnames : Ref.names store = .ok names) (hmem : name ∈ names) : isStored store name = true := by
  cases hnames
  obtain ⟨key, hkey, rfl⟩ := List.mem_map.1 hmem
  obtain ⟨⟨content, hget⟩, hstart⟩ := MemoryStore.mem_keys.1 hkey
  rcases honly key content hget with rfl | ⟨name, hvalid, rfl⟩
  · exact absurd hstart (by decide)
  · rw [Ref.dropStart_key]
    exact isStored_iff.2 ⟨hvalid, MemoryStore.has_iff.2 ⟨content, hget⟩⟩

theorem exists_mapM_eq_ok {ε α β : Type} {f : α → Except ε β} {xs : List α}
    (h : ∀ x ∈ xs, ∃ y, f x = .ok y) : ∃ ys, xs.mapM f = .ok ys := by
  induction xs with
  | nil => exact ⟨[], rfl⟩
  | cons x xs ih =>
      rw [List.forall_mem_cons] at h
      obtain ⟨y, hy⟩ := h.1
      obtain ⟨ys, hys⟩ := ih h.2
      exact ⟨y :: ys, by rw [List.mapM_cons, hy, hys]; rfl⟩

/-- A store is healthy if it holds nothing but HEAD and branches and all of it can be read. -/
theorem Readable.healthy (h : Readable store) (honly : OnlyBranches store) : Healthy store where
  listed := by
    obtain ⟨active, hactive⟩ := h.current
    have hnames : Ref.names store = .ok ((store.keys Ref.directory).map (Text.dropStart Ref.directory)) := rfl
    rw [list, hnames, hactive]
    refine exists_mapM_eq_ok fun name hmem => ?_
    obtain ⟨commit, hresolve⟩ := h.resolve (isStored_of_mem_names honly hnames hmem)
    rw [hresolve]
    exact ⟨_, rfl⟩
  resolved _ hstored := h.resolve hstored
  removable name published hstored := by
    obtain ⟨active, hactive⟩ := h.current
    obtain ⟨commit, hresolve⟩ := h.resolve hstored
    have hdelete := delete_eq (isStored_iff.1 hstored).2
    rw [remove_of_resolve hstored hactive (fun _ => rfl) hresolve, changeAndTell_of_ok hdelete]

/-! ## Blank branches -/

/-- A branch that is stored and cannot be read. -/
def IsBlank (store : MemoryStore) (name : String) : Prop :=
  isStored store name = true ∧ ∃ error, Ref.resolve store name = .error error

theorem isBlank_of_get? {content : String} (hvalid : BranchName.isValid name = true)
    (hget : store.objects.get? (Ref.key name) = some content) (hblank : Ref.trimPointer content = "") :
    IsBlank store name := by
  have hhas : ObjectStore.has store (Ref.key name) = true := MemoryStore.has_iff.2 ⟨content, hget⟩
  refine ⟨isStored_iff.2 ⟨hvalid, hhas⟩, .refNotFound name, ?_⟩
  rw [Ref.resolve_of_ne_head (BranchName.ne_head hvalid)]
  exact Ref.readPointer_of_blank hhas (MemoryStore.read_of_get? hget) hblank

theorem IsBlank.not_healthy (h : IsBlank store name) : ¬Healthy store := by
  intro hhealthy
  obtain ⟨hstored, error, hblank⟩ := h
  obtain ⟨commit, hresolve⟩ := hhealthy.resolved name hstored
  rw [hblank] at hresolve
  cases hresolve

theorem IsBlank.of_get?_eq (h : IsBlank store name)
    (hget : after.objects.get? (Ref.key name) = store.objects.get? (Ref.key name)) : IsBlank after name := by
  obtain ⟨hstored, error, hblank⟩ := h
  obtain ⟨hvalid, hhas⟩ := isStored_iff.1 hstored
  refine ⟨isStored_iff.2 ⟨hvalid, (MemoryStore.has_congr hget).trans hhas⟩, error, ?_⟩
  rw [Ref.resolve_of_get?_eq (BranchName.ne_head hvalid) hget, hblank]

/-- A blank branch stays: to be dropped or pointed anew it would have to be read. -/
theorem Step.isBlank (h : Step Allowed store after) (hblank : IsBlank store name) : IsBlank after name := by
  cases h with
  | @point other commit hvalid hnew =>
      have hne : other ≠ name := fun heq => by
        rw [heq, hblank.1] at hnew
        cases hnew
      exact hblank.of_get?_eq (by rw [Dict.get?_insert, if_neg fun heq => hne (Ref.key_injective heq)])
  | @drop other commit hvalid hresolve =>
      have hne : other ≠ name := fun heq => by
        obtain ⟨error, herror⟩ := hblank.2
        rw [heq, herror] at hresolve
        cases hresolve
      exact hblank.of_get?_eq (by rw [Dict.get?_erase, if_neg fun heq => hne (Ref.key_injective heq)])
  | enter => exact hblank.of_get?_eq (by rw [Dict.get?_insert, if_neg (Ref.key_ne_head name).symm])

theorem isBlank_of_steps (h : ReflTransGen (Step Allowed) store after) (hblank : IsBlank store name) :
    IsBlank after name := by
  induction h with
  | refl => exact hblank
  | tail _ hstep ih => exact hstep.isBlank ih

/-- No ref is called by a blank text, so that a branch created there starts at the text itself. -/
theorem startingPoint_of_blank {base : String} (honly : OnlyBranches store)
    (hblank : Ref.trimPointer base = "") : startingPoint store (some base) = .ok base := by
  have hhead : base ≠ Head.name := by
    rintro rfl
    exact absurd hblank (by decide)
  have hmissing : Ref.isStored store base = false := by
    rw [Ref.isStored, if_neg hhead, Bool.eq_false_iff]
    intro hstored
    obtain ⟨content, hget⟩ := MemoryStore.has_iff.1 hstored
    rcases honly _ content hget with heq | ⟨name, hvalid, heq⟩
    · exact Ref.key_ne_head base heq
    · cases Ref.key_injective heq
      exact BranchName.ne_empty hvalid ((BranchName.trimPointer_eq_self hvalid).symm.trans hblank)
  simp [startingPoint, hhead, hmissing]
  rfl

/-- A branch that is created at a blank text is blank. -/
theorem isBlank_of_create {repo : Repository MemoryStore} {base : String} (honly : OnlyBranches repo.store)
    (hblank : Ref.trimPointer base = "") (haccepted : (create name (some base) repo).1 = .ok ()) :
    IsBlank (create name (some base) repo).2.store name := by
  have hbase : startingPoint repo.store (some base) = .ok base := startingPoint_of_blank honly hblank
  rcases create_cases repo name (some base) with ⟨error, -, hrefused⟩ | ⟨commit, hvalid, -, hcommit, hcreate⟩
  · rw [hrefused] at haccepted
    cases haccepted
  · cases hbase.symm.trans hcommit
    rw [hcreate.trans (changeAndTell_of_ok (update_eq repo.store hvalid base))]
    refine isBlank_of_get? hvalid ?_ ((Ref.trimPointer_newline base).trans hblank)
    rw [get?_point, if_pos rfl]

/-! ## Runs from an empty store -/

theorem onlyBranches_run (commands : List BranchCommand) :
    OnlyBranches (BranchCommand.run commands ({ store := .empty } : Repository MemoryStore)).store :=
  onlyBranches_of_steps (steps_of_run_any commands) holds_empty

/-- A run from an empty store leaves a healthy one exactly if no branch was created at a blank text. -/
theorem healthy_run_iff (commands : List BranchCommand) :
    Healthy (BranchCommand.run commands ({ store := .empty } : Repository MemoryStore)).store ↔
      ∀ before name base after, commands = before ++ .create name (some base) :: after →
        (create name (some base)
            (BranchCommand.run before ({ store := .empty } : Repository MemoryStore))).1 = .ok () →
          IsPointer base := by
  constructor
  · rintro hhealthy before name base after rfl haccepted hblank
    have hcreated := isBlank_of_create (onlyBranches_run before) hblank haccepted
    refine (isBlank_of_steps (steps_of_run_any after) hcreated).not_healthy ?_
    rwa [BranchCommand.run_append, BranchCommand.run_cons] at hhealthy
  · intro hbases
    have hsteps := steps_of_run commands (fun _ h => h) hbases
    exact (readable_of_steps hsteps holds_empty).healthy (onlyBranches_run commands)

/-- One creation at the empty text is enough. -/
theorem not_healthy_run_of_blank : ¬Healthy (BranchCommand.run
    [.create "main" (some "c1"), .checkout "main" false, .create "dev" (some "")]
    ({ store := .empty } : Repository MemoryStore)).store := by
  have hblank : IsBlank (create "dev" (some "") (BranchCommand.run
      [.create "main" (some "c1"), .checkout "main" false] { store := .empty })).2.store "dev" :=
    isBlank_of_create (onlyBranches_run _) (by decide) (by decide +kernel)
  exact hblank.not_healthy

end VersionControl.Branch
