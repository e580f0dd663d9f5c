import VersionControl.Proofs.Key
import VersionControl.Store.Basic

/-!
# Laws of object stores

What a sound store promises about its plain keys: a write succeeds or leaves every object as it was, a stored
key can be written and removed, and no change of one key touches another.
-/

namespace VersionControl

namespace ObjectStore

variable {σ : Type} [ObjectStore σ]

/-- Two stores that hold the same objects, whatever they keep beside them. -/
structure SameContent (a b : σ) : Prop where
  keys : ∀ start, ObjectStore.keys a start = ObjectStore.keys b start
  dump : ObjectStore.dump a = ObjectStore.dump b
  has : ∀ {key}, '\x00' ∉ key.toList → ObjectStore.has a key = ObjectStore.has b key
  read : ∀ {key}, '\x00' ∉ key.toList → ObjectStore.read a key = ObjectStore.read b key

/-- A change that touches no plain key but one. -/
structure ChangesOnly (key : String) (before after : σ) : Prop where
  has : ∀ {other}, Key.IsPlain other → other ≠ key →
    ObjectStore.has after other = ObjectStore.has before other
  read : ∀ {other}, Key.IsPlain other → other ≠ key → ObjectStore.has before other = true →
    ObjectStore.read after other = ObjectStore.read before other

theorem SameContent.refl (store : σ) : SameContent store store :=
  ⟨fun _ => rfl, rfl, fun _ => rfl, fun _ => rfl⟩

end ObjectStore

open ObjectStore

class LawfulStore (σ : Type) [ObjectStore σ] where
  Sound : σ → Prop
  /-- Nothing stands where a write of the key passes through. -/
  Stages : σ → String → Prop
  write_cases {store : σ} {key : String} : Sound store → Key.IsPlain key → ∀ data : String,
    (∃ error after, write key data store = (.error error, after) ∧ Sound after ∧ SameContent after store ∧
      (Stages store key → has store key = false)) ∨
    ∃ after, write key data store = (.ok (), after) ∧ Sound after ∧ ChangesOnly key store after ∧
      has after key = true ∧ read after key = .ok data
  remove_of_has {store : σ} {key : String} : Sound store → Key.IsPlain key → has store key = true →
    ∃ after, remove key store = (.ok (), after) ∧ Sound after ∧ ChangesOnly key store after ∧
      has after key = false
  stages_write {store : σ} {key other : String} : Sound store → Key.IsPlain key → ∀ data : String,
    Stages store other → Stages (write key data store).2 other
  stages_remove {store : σ} {key other : String} : Sound store → Key.IsPlain key → has store key = true →
    Stages store other → Stages (remove key store).2 other

namespace LawfulStore

variable {σ : Type} [ObjectStore σ] [LawfulStore σ] {store : σ} {key : String}

theorem write_of_has (h : Sound store) (hkey : Key.IsPlain key) (hstages : Stages store key)
    (hstored : has store key = true) (data : String) :
    ∃ after, write key data store = (.ok (), after) ∧ Sound after ∧ ChangesOnly key store after ∧
      has after key = true ∧ read after key = .ok data := by
  rcases write_cases h hkey data with ⟨_, _, _, _, _, hmissing⟩ | hwritten
  · simp [hmissing hstages] at hstored
  · exact hwritten

theorem sound_write (h : Sound store) (hkey : Key.IsPlain key) (data : String) :
    Sound (write key data store).2 := by
  rcases write_cases h hkey data with ⟨_, _, hwrite, hafter, _⟩ | ⟨_, hwrite, hafter, _⟩
  · rwa [hwrite]
  · rwa [hwrite]

end LawfulStore

end VersionControl
