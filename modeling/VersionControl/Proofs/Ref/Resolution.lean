import VersionControl.Proofs.Ref.Memory

/-!
# Where a resolution ends

Whatever a store in memory holds, a name resolves to a text with nothing to trim, or the last pointer on the way is
missing or blank and the refusal says which one. HEAD never names an empty text.
-/

namespace VersionControl

/-- The branch or the commit that HEAD names. -/
def Head.ref : Head → String
  | .symbolic branch => branch
  | .detached hash => hash

namespace Ref

variable {store : MemoryStore} {text : String}

/-! ## Blank and bare texts -/

/-- Nothing but blanks and line ends. -/
def IsBlank (text : String) : Prop := ∀ c ∈ text.toList, c = ' ' ∨ c = '\r' ∨ c = '\n'

/-- Not empty, and no blank and no line end comes last. -/
def IsBare (text : String) : Prop :=
  text ≠ "" ∧ ∀ c ∈ text.toList.getLast?, c ≠ ' ' ∧ c ≠ '\r' ∧ c ≠ '\n'

theorem isTrailingBlank_iff {c : Char} : isTrailingBlank c = true ↔ c = ' ' ∨ c = '\r' ∨ c = '\n' := by
  simp [isTrailingBlank, or_assoc]

theorem trimPointer_eq_empty_iff : trimPointer text = "" ↔ IsBlank text := by
  rw [trimPointer, Text.trimEndWhile_eq_empty_iff]
  exact forall₂_congr fun _ _ => isTrailingBlank_iff

theorem isBlank_newline_iff : IsBlank (text ++ "\n") ↔ IsBlank text := by
  rw [← trimPointer_eq_empty_iff, trimPointer_newline, trimPointer_eq_empty_iff]

theorem isBare_iff : IsBare text ↔ trimPointer text = text ∧ text ≠ "" := by
  have hlast : (∀ c ∈ text.toList.getLast?, c ≠ ' ' ∧ c ≠ '\r' ∧ c ≠ '\n') ↔
      ∀ c ∈ text.toList.getLast?, isTrailingBlank c = false := by
    refine forall₂_congr fun c _ => ?_
    rw [← Bool.not_eq_true, isTrailingBlank_iff, not_or, not_or]
  rw [IsBare, hlast, and_comm]
  refine and_congr_left fun _ => ⟨Text.trimEndWhile_eq_self, fun h => ?_⟩
  rw [← h]
  exact Text.trimEndWhile_getLast?

theorem isBare_trimPointer (h : ¬IsBlank text) : IsBare (trimPointer text) :=
  isBare_iff.2 ⟨trimPointer_trimPointer text, mt trimPointer_eq_empty_iff.1 h⟩

/-! ## One hop -/

/-- A pointer on the way of a resolution: where it is stored, and what a refusal calls it. -/
structure Hop where
  key : String
  name : String

def Hop.head : Hop := ⟨Head.name, Head.name⟩

def Hop.branch (name : String) : Hop := ⟨Ref.key name, name⟩

/-- Nothing is stored there, or nothing but blanks and line ends. -/
def Hop.IsVoid (hop : Hop) (store : MemoryStore) : Prop :=
  ∀ content, store.objects.get? hop.key = some content → IsBlank content

/-- A pointer is read, or it is void and refused by its name. -/
theorem readPointer_cases (store : MemoryStore) (hop : Hop) :
    (∃ content, store.objects.get? hop.key = some content ∧ IsBare (trimPointer content) ∧
        readPointer store hop.key hop.name = .ok (trimPointer content)) ∨
      hop.IsVoid store ∧ readPointer store hop.key hop.name = .error (.refNotFound hop.name) := by
  cases hget : store.objects.get? hop.key with
  | none =>
      have hmissing : ¬ObjectStore.has store hop.key = true := by
        rw [MemoryStore.has_iff, hget]
        simp
      exact .inr ⟨fun content h => by simp [hget] at h, if_neg hmissing⟩
  | some content =>
      have hstored : ObjectStore.has store hop.key = true := MemoryStore.has_iff.2 ⟨content, hget⟩
      by_cases hblank : trimPointer content = ""
      · refine .inr ⟨fun other h => ?_, readPointer_of_blank hstored (MemoryStore.read_of_get? hget) hblank⟩
        cases hget.symm.trans h
        exact trimPointer_eq_empty_iff.1 hblank
      · exact .inl ⟨content, rfl, isBare_trimPointer (mt trimPointer_eq_empty_iff.2 hblank),
          readPointer_of_read hstored (MemoryStore.read_of_get? hget) hblank⟩

/-! ## HEAD -/

theorem head_cases (store : MemoryStore) :
    (∃ content, store.objects.get? Head.name = some content ∧ IsBare (trimPointer content) ∧
        head store = .ok (.ofPointer (trimPointer content))) ∨
      Hop.head.IsVoid store ∧ head store = .error (.refNotFound Head.name) := by
  rcases readPointer_cases store .head with ⟨content, hget, hbare, hread⟩ | ⟨hvoid, hread⟩
  · exact .inl ⟨content, hget, hbare, head_eq_ok_of_readPointer hread⟩
  · refine .inr ⟨hvoid, ?_⟩
    rw [head, show readPointer store Head.name Head.name = _ from hread]
    rfl

theorem ofPointer_eq_detached {pointer hash : String} (h : Head.ofPointer pointer = .detached hash) :
    pointer = hash := by
  rw [Head.ofPointer] at h
  split at h
  case isTrue => cases h
  case isFalse =>
    cases h
    rfl

theorem ofPointer_eq_symbolic {pointer branch : String} (h : Head.ofPointer pointer = .symbolic branch) :
    pointer = Head.branchMark ++ branch := by
  rw [Head.ofPointer] at h
  split at h
  case isTrue hmark =>
    obtain ⟨rest, rfl⟩ := Text.startsWith_iff.1 hmark
    rw [Text.dropStart_append] at h
    cases h
    rfl
  case isFalse => cases h

/-- The blank that ends the mark of a branch would have been trimmed. -/
theorem IsBare.ref_ofPointer_ne_empty {pointer : String} (h : IsBare pointer) :
    (Head.ofPointer pointer).ref ≠ "" := by
  rw [Head.ofPointer]
  split
  case isTrue hmark =>
    obtain ⟨branch, rfl⟩ := Text.startsWith_iff.1 hmark
    rw [Text.dropStart_append]
    rintro (rfl : branch = "")
    exact absurd rfl (h.2 ' ' (by decide)).1
  case isFalse => exact h.1

/-! ## All hops -/

/-- The hop at which the resolution of a name ends: HEAD's own pointer counts unless it names a branch. -/
inductive EndsAt (store : MemoryStore) : String → Hop → Prop
  | named {name : String} : name ≠ Head.name → EndsAt store name (.branch name)
  | head : (∀ branch, Ref.head store ≠ .ok (.symbolic branch)) → EndsAt store Head.name .head
  | followed {branch : String} : Ref.head store = .ok (.symbolic branch) → EndsAt store Head.name (.branch branch)

theorem resolve_head_of_detached {hash : String} (h : head store = .ok (.detached hash)) :
    resolve store Head.name = .ok hash := by
  rw [resolve, if_pos rfl, h]
  rfl

theorem resolve_head_of_error {error : Error} (h : head store = .error error) :
    resolve store Head.name = .error error := by
  rw [resolve, if_pos rfl, h]
  rfl

/-- Whatever is stored, a name resolves to what the last pointer on the way says without its trailing blanks, or
that pointer is void and the refusal calls it by its name. -/
theorem resolve_ends (store : MemoryStore) (name : String) :
    (∃ hop, EndsAt store name hop ∧
      ((∃ content, store.objects.get? hop.key = some content ∧ IsBare (trimPointer content) ∧
          resolve store name = .ok (trimPointer content)) ∨
        hop.IsVoid store ∧ resolve store name = .error (.refNotFound hop.name))) ∧
      ∀ current, head store = .ok current → current.ref ≠ "" := by
  constructor
  · by_cases hname : name = Head.name
    · subst hname
      rcases head_cases store with ⟨content, hget, hbare, hhead⟩ | ⟨hvoid, hhead⟩
      · cases hpointer : Head.ofPointer (trimPointer content) with
        | symbolic branch =>
            rw [hpointer] at hhead
            refine ⟨.branch branch, .followed hhead, ?_⟩
            rw [resolve_head_of_symbolic hhead]
            exact readPointer_cases store (.branch branch)
        | detached hash =>
            rw [hpointer] at hhead
            have hresolve := resolve_head_of_detached hhead
            rw [← ofPointer_eq_detached hpointer] at hresolve
            exact ⟨.head, .head (by simp [hhead]), .inl ⟨content, hget, hbare, hresolve⟩⟩
      · exact ⟨.head, .head (by simp [hhead]), .inr ⟨hvoid, resolve_head_of_error hhead⟩⟩
    · refine ⟨.branch name, .named hname, ?_⟩
      rw [resolve_of_ne_head hname]
      exact readPointer_cases store (.branch name)
  · intro current hcurrent
    rcases head_cases store with ⟨content, -, hbare, hhead⟩ | ⟨-, hhead⟩
    · cases hhead.symm.trans hcurrent
      exact hbare.ref_ofPointer_ne_empty
    · cases hhead.symm.trans hcurrent

end Ref

end VersionControl
