import VersionControl.EventBus.Components
import VersionControl.Proofs.Branch.Atomicity
import VersionControl.Proofs.Branch.Listing

/-!
# Tallies

What calls have come to, counted by their answers. The events that they publish count the same, and the refs that are
stored are those at the start and those created since, less those deleted.
-/

namespace VersionControl

/-- A command and the store that it was given to. -/
structure BranchCall where
  command : BranchCommand
  store : MemoryStore

namespace BranchCall

def outcome (call : BranchCall) : Except Error Unit × Repository MemoryStore :=
  call.command.operation { store := call.store }

def succeeds (call : BranchCall) : Bool := call.outcome.1.isOk

/-- A branch is created by a call for it, or by a checkout of a branch that is missing. -/
def creates : BranchCall → Bool
  | call@⟨.create .., _⟩ => call.succeeds
  | ⟨.checkout name createMissing, store⟩ =>
    !Branch.isStored store name && createMissing && (Branch.create name none { store } : _ × Repository _).1.isOk
  | ⟨.remove .., _⟩ | ⟨.rename .., _⟩ => false

@[simp] def removes : BranchCall → Bool
  | call@⟨.remove .., _⟩ => call.succeeds
  | ⟨.create .., _⟩ | ⟨.checkout .., _⟩ | ⟨.rename .., _⟩ => false

@[simp] def forces : BranchCall → Bool
  | call@⟨.remove _ force, _⟩ => force && call.succeeds
  | ⟨.create .., _⟩ | ⟨.checkout .., _⟩ | ⟨.rename .., _⟩ => false

@[simp] def renames : BranchCall → Bool
  | call@⟨.rename .., _⟩ => call.succeeds
  | ⟨.create .., _⟩ | ⟨.checkout .., _⟩ | ⟨.remove .., _⟩ => false

@[simp] def checksOut : BranchCall → Bool
  | call@⟨.checkout .., _⟩ => call.succeeds
  | ⟨.create .., _⟩ | ⟨.remove .., _⟩ | ⟨.rename .., _⟩ => false

/-- The counts with what the call has come to. -/
def addTo (call : BranchCall) (counts : Metrics) : Metrics where
  created := counts.created + call.creates.toNat
  deleted := counts.deleted + call.removes.toNat
  forced := counts.forced + call.forces.toNat
  renamed := counts.renamed + call.renames.toNat
  checkouts := counts.checkouts + call.checksOut.toNat

end BranchCall

namespace Branch

/-- The number of keys in the directory of refs. -/
def refCount (store : MemoryStore) : Nat := store.objects.keys.countP (Text.startsWith Ref.directory)

/-- What was counted since `start` is what the calls have come to, and accounts for the refs in the store. -/
structure Tallies (start : MemoryStore) (calls : List BranchCall) (store : MemoryStore) (counts : Metrics) : Prop where
  created : counts.created = calls.countP BranchCall.creates
  deleted : counts.deleted = calls.countP BranchCall.removes
  forced : counts.forced = calls.countP BranchCall.forces
  renamed : counts.renamed = calls.countP BranchCall.renames
  checkouts : counts.checkouts = calls.countP BranchCall.checksOut
  refs : refCount store + counts.deleted = refCount start + counts.created

variable {Allowed : String → Prop} {start store after : MemoryStore} {calls : List BranchCall} {counts : Metrics}
  {name commit : String} {event : BranchEvent} {command : BranchCommand} {told : List BranchEvent}

theorem tallies_start (start : MemoryStore) : Tallies start [] start {} := ⟨rfl, rfl, rfl, rfl, rfl, rfl⟩

/-! ## Refs -/

theorem startsWith_key (name : String) : Text.startsWith Ref.directory (Ref.key name) = true :=
  Ref.startsWith_directory_iff.2 ⟨name, rfl⟩

theorem refCount_point (h : store.objects.get? (Ref.key name) = none) :
    refCount (point name commit store) = refCount store + 1 := by
  rw [refCount, point, Dict.countP_keys_insert_of_new _ h, if_pos (startsWith_key name), refCount]

theorem refCount_drop {content : String} (h : store.objects.get? (Ref.key name) = some content) :
    refCount (drop name store) + 1 = refCount store := by
  rw [refCount, refCount, drop, Dict.countP_keys_of_get? _ h, if_pos (startsWith_key name)]

theorem refCount_enter : refCount (enter name store) = refCount store :=
  Dict.countP_keys_insert (by decide)

theorem refCount_moveTo {oldName newName : String} {wasCurrent : Bool} (hvalid : BranchName.isValid newName = true)
    (hold : isStored store oldName = true) (hnew : isStored store newName = false) :
    refCount (moveTo oldName newName commit wasCurrent store) = refCount store := by
  obtain ⟨content, hget⟩ := MemoryStore.has_iff.1 (isStored_iff.1 hold).2
  have hkept : (point newName commit store).objects.get? (Ref.key oldName) = some content := by
    simp [(ne_of_isStored hold hnew).symm, hget]
  have hdropped := refCount_drop hkept
  rw [refCount_point (get?_key_of_missing hvalid hnew)] at hdropped
  rw [moveTo]
  split
  · rw [refCount_enter]
    omega
  · omega

/-- Each event changes the number of refs by what it tells. -/
theorem Occurs.refCount_eq (h : Occurs Allowed store event after) (counts : Metrics) :
    refCount after + (counts.count event).deleted + counts.created =
      refCount store + (counts.count event).created + counts.deleted := by
  cases h with
  | created hvalid hnew =>
      rw [refCount_point (get?_key_of_missing hvalid hnew)]
      simp only [Metrics.count]
      omega
  | @deleted name commit active forced hvalid hresolve =>
      rw [Ref.resolve_of_ne_head (BranchName.ne_head hvalid)] at hresolve
      obtain ⟨content, hget⟩ := MemoryStore.has_iff.1 (Ref.readPointer_eq_ok hresolve).1
      rw [← refCount_drop hget]
      simp only [Metrics.count]
      omega
  | renamed hvalid hold hnew =>
      rw [refCount_moveTo hvalid hold hnew]
      simp only [Metrics.count]
      omega
  | checkedOut =>
      rw [refCount_enter]
      simp only [Metrics.count]
      omega

theorem Effect.refCount_eq (h : Effect Allowed store command told after) (counts : Metrics) :
    refCount after + (told.foldl Metrics.count counts).deleted + counts.created =
      refCount store + (told.foldl Metrics.count counts).created + counts.deleted := by
  cases h with
  | create h | checkout h | remove h | rename h => exact h.refCount_eq counts
  | @checkoutNew name commit previous created after hcreated h =>
      have hfirst := hcreated.refCount_eq counts
      have hsecond := h.refCount_eq (counts.count (.created name commit))
      simp only [List.foldl_cons, List.foldl_nil]
      omega

/-! ## Answers -/

/-- A checkout that has to create its branch succeeds exactly if the branch can be created. -/
theorem isOk_checkout {σ : Type} [ObjectStore σ] [LawfulStore σ] {repo : Repository σ} (h : Ready repo.store)
    (hmissing : isStored repo.store name = false) :
    (checkout name true repo).1.isOk = (create name none repo).1.isOk := by
  rw [checkout_eq, Transition.bind_apply]
  rcases require_cases repo name true with ⟨hstored, -⟩ | ⟨-, hfalse, -⟩ | ⟨-, -, hrequire⟩
  · rw [hstored] at hmissing
    cases hmissing
  · cases hfalse
  · rw [hrequire]
    cases hcreate : create name none repo with
    | mk answer created =>
        cases answer with
        | error error => rfl
        | ok _ =>
            obtain ⟨last, hswitch⟩ := switchTo_of_create h hcreate
            rw [Transition.andThen_ok, hswitch]

/-- The branch of a checkout is created exactly if it was missing and the whole call succeeds. -/
theorem creates_checkout (name : String) (createMissing : Bool) (store : MemoryStore) :
    BranchCall.creates ⟨.checkout name createMissing, store⟩ =
      (!isStored store name && createMissing && BranchCall.succeeds ⟨.checkout name createMissing, store⟩) := by
  cases hstored : isStored store name with
  | true => simp only [BranchCall.creates, hstored, Bool.not_true, Bool.false_and]
  | false =>
      cases createMissing with
      | false => simp only [BranchCall.creates, Bool.and_false, Bool.false_and]
      | true =>
          have hcheckout : BranchCall.succeeds ⟨.checkout name true, store⟩ =
              (create name none ({ store } : Repository MemoryStore)).1.isOk := isOk_checkout ⟨trivial, trivial⟩ hstored
          simp only [BranchCall.creates, hcheckout, hstored]

/-- The events of a call tell what it has come to. -/
theorem count_published (call : BranchCall) (counts : Metrics) :
    call.outcome.2.published.foldl Metrics.count counts = call.addTo counts := by
  obtain ⟨command, store⟩ := call
  rcases operation_cases_any { store } command with ⟨error, hrefused⟩ | ⟨told, after, hdone, heffect⟩
  · have hfails : BranchCall.succeeds ⟨command, store⟩ = false := by
      rw [BranchCall.succeeds, BranchCall.outcome, hrefused]
      rfl
    rw [BranchCall.outcome, hrefused, BranchCall.addTo]
    cases command with
    | checkout => simp [creates_checkout, hfails]
    | create | remove | rename => simp [BranchCall.creates, hfails]
  · have hsucceeds : BranchCall.succeeds ⟨command, store⟩ = true := by
      rw [BranchCall.succeeds, BranchCall.outcome, hdone]
      rfl
    rw [BranchCall.outcome, hdone, BranchCall.addTo]
    cases heffect with
    | create | rename => simp [BranchCall.creates, Metrics.count, hsucceeds]
    | @remove _ _ force => cases force <;> simp [BranchCall.creates, Metrics.count, hsucceeds]
    | checkout hentered =>
        cases hentered with
        | checkedOut hstored => simp [creates_checkout, Metrics.count, hsucceeds, hstored]
    | checkoutNew hcreated =>
        cases hcreated with
        | created hvalid hnew => simp [creates_checkout, Metrics.count, hsucceeds, hnew]

theorem refCount_outcome (call : BranchCall) (counts : Metrics) :
    refCount call.outcome.2.store + (call.outcome.2.published.foldl Metrics.count counts).deleted + counts.created =
      refCount call.store + (call.outcome.2.published.foldl Metrics.count counts).created + counts.deleted := by
  rw [BranchCall.outcome]
  rcases operation_cases_any { store := call.store } call.command with ⟨error, hrefused⟩ | ⟨told, after, hdone, heffect⟩
  · rw [hrefused]
    exact Nat.add_right_comm _ _ _
  · rw [hdone]
    exact heffect.refCount_eq counts

/-! ## Runs of calls -/

theorem countP_append_singleton (p : BranchCall → Bool) (calls : List BranchCall) (call : BranchCall) :
    (calls ++ [call]).countP p = calls.countP p + (p call).toNat := by
  rw [List.countP_append, List.countP_singleton]
  cases p call <;> rfl

theorem Tallies.call (h : Tallies start calls store counts) (command : BranchCommand) :
    Tallies start (calls ++ [⟨command, store⟩]) (BranchCall.outcome ⟨command, store⟩).2.store
      ((BranchCall.outcome ⟨command, store⟩).2.published.foldl Metrics.count counts) := by
  have hrefs := h.refs
  have hcall := refCount_outcome ⟨command, store⟩ counts
  rw [count_published] at hcall ⊢
  dsimp only at hcall
  refine ⟨?_, ?_, ?_, ?_, ?_, by omega⟩
  · rw [countP_append_singleton, ← h.created]
    rfl
  · rw [countP_append_singleton, ← h.deleted]
    rfl
  · rw [countP_append_singleton, ← h.forced]
    rfl
  · rw [countP_append_singleton, ← h.renamed]
    rfl
  · rw [countP_append_singleton, ← h.checkouts]
    rfl

/-- Every forced removal is a removal. -/
theorem Tallies.forced_le (h : Tallies start calls store counts) : counts.forced ≤ counts.deleted := by
  rw [h.forced, h.deleted]
  refine List.countP_mono_left fun call _ => ?_
  obtain ⟨command, store⟩ := call
  cases command <;> simp

end Branch

end VersionControl
