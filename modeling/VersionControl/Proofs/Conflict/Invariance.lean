import Mathlib.Logic.Relation
import VersionControl.Proofs.Conflict.Detection

/-!
# What detection does not depend on

Detection reads the latest change of each target and nothing else. So it finds the same conflicts when changes of
different targets or times change places, and when changes that were superseded are put in. A clock that keeps
the order of the times on a side changes nothing but the times that the conflicts tell.
-/

namespace VersionControl

namespace Change

open Relation (ReflTransGen)

variable {f : Int → Int} {before after changes : List Change}

/-! ## Rewriting a stream -/

/-- A rewriting of a stream: its changes are put into another order, in which those of one target and time stay as they
stood to each other, or a change is put in that is older than one of its target. -/
inductive Rewrites : List Change → List Change → Prop
  | rearrange {before after : List Change} :
      (∀ (target : String) (time : Int),
        after.filter (fun c => c.target = target ∧ c.time = time) =
          before.filter (fun c => c.target = target ∧ c.time = time)) →
      Rewrites before after
  | insert {front back : List Change} {older later : Change} : later ∈ front ++ back →
      older.target = later.target → older.time < later.time →
      Rewrites (front ++ back) (front ++ older :: back)

theorem Rewrites.isLatest_iff (h : Rewrites before after) (change : Change) :
    IsLatest change after ↔ IsLatest change before := by
  cases h with
  | rearrange hsame => exact isLatest_congr hsame
  | insert hmem htarget htime => exact isLatest_insert_older hmem htarget htime

/-- Neighbours of different targets or times may change places. -/
theorem Rewrites.swap {front back : List Change} {a b : Change} (h : a.target = b.target → a.time ≠ b.time) :
    Rewrites (front ++ a :: b :: back) (front ++ b :: a :: back) := by
  refine .rearrange fun target time => ?_
  simp only [List.filter_append, List.filter_cons]
  by_cases ha : a.target = target ∧ a.time = time
  · have hb : ¬ (b.target = target ∧ b.time = time) := fun hb =>
      h (ha.1.trans hb.1.symm) (ha.2.trans hb.2.symm)
    simp [hb]
  · simp [ha]

theorem isLatest_of_rewritten (h : ReflTransGen Rewrites before after) (change : Change) :
    IsLatest change after ↔ IsLatest change before := by
  induction h with
  | refl => rfl
  | tail _ hstep ih => exact (hstep.isLatest_iff change).trans ih

/-! ## Another clock -/

def retime (f : Int → Int) (change : Change) : Change := { change with time := f change.time }

/-- Of two times in the stream the later one stays the later one. -/
def Increases (f : Int → Int) (changes : List Change) : Prop :=
  ∀ a ∈ changes, ∀ b ∈ changes, a.time < b.time → f a.time < f b.time

instance (f : Int → Int) (changes : List Change) : Decidable (Increases f changes) :=
  inferInstanceAs (Decidable (∀ a ∈ changes, ∀ b ∈ changes, a.time < b.time → f a.time < f b.time))

theorem Increases.mono (h : Increases f changes) (hsub : before ⊆ changes) : Increases f before :=
  fun a ha b hb => h a (hsub ha) b (hsub hb)

theorem Increases.le_iff {a b : Change} (h : Increases f changes) (ha : a ∈ changes) (hb : b ∈ changes) :
    f a.time ≤ f b.time ↔ a.time ≤ b.time := by
  constructor <;> intro hle
  · refine Int.not_lt.1 fun hlt => ?_
    have := h b hb a ha hlt
    omega
  · rcases Int.lt_or_eq_of_le hle with hlt | heq
    · exact Int.le_of_lt (h a ha b hb hlt)
    · exact Int.le_of_eq (congrArg f heq)

theorem keepLatest_retime {kept : List Change} {next : Change}
    (h : ∀ c ∈ kept, f c.time ≤ f next.time ↔ c.time ≤ next.time) :
    keepLatest (kept.map (retime f)) (retime f next) = (keepLatest kept next).map (retime f) := by
  induction kept with
  | nil => rfl
  | cons c rest ih =>
      rw [List.forall_mem_cons] at h
      by_cases htarget : c.target = next.target
      · by_cases hle : c.time ≤ next.time <;> simp [keepLatest, retime, htarget, h.1, hle]
      · simpa [keepLatest, retime, htarget] using ih h.2

theorem latest_retime (h : Increases f changes) :
    latest (changes.map (retime f)) = (latest changes).map (retime f) := by
  induction changes using List.reverseRecOn with
  | nil => rfl
  | append_singleton changes next ih =>
      have hkept : ∀ c ∈ latest changes, f c.time ≤ f next.time ↔ c.time ≤ next.time := fun c hc =>
        h.le_iff (List.mem_append_left _ (mem_of_mem_latest hc)) (by simp)
      rw [List.map_append, List.map_cons, List.map_nil, latest_concat, latest_concat,
        ih (h.mono (List.subset_append_left _ _)), keepLatest_retime hkept]

theorem latestOn?_retime (h : Increases f changes) (target : String) :
    latestOn? target (changes.map (retime f)) = (latestOn? target changes).map (retime f) := by
  rw [latestOn?, latest_retime h, List.find?_map]
  rfl

theorem targets_retime (f : Int → Int) (changes : List Change) :
    targets (changes.map (retime f)) = targets changes := by
  rw [targets, List.map_map]
  rfl

end Change

/-- The conflict with other times on both of its changes. -/
def Conflict.retime (f g : Int → Int) (conflict : Conflict) : Conflict :=
  { conflict with ourChange := conflict.ourChange.retime f, theirChange := conflict.theirChange.retime g }

namespace Analysis

open Change (Rewrites Increases IsLatest)
open Relation (ReflTransGen)

def retime (f g : Int → Int) (analysis : Analysis) : Analysis :=
  { analysis with conflicts := analysis.conflicts.map (Conflict.retime f g) }

theorem join_map_retime (f g : Int → Int) (parts : List Analysis) :
    join (parts.map (retime f g)) = (join parts).retime f g := by
  simp [join, retime, List.flatMap_map, List.map_flatMap]

section Library

variable [ValueLibrary] {f g : Int → Int} {ours theirs mine yours : List Change}

theorem conflicts_perm (hours : ∀ change, IsLatest change mine ↔ IsLatest change ours)
    (htheirs : ∀ change, IsLatest change yours ↔ IsLatest change theirs) :
    (ofStreams mine yours).conflicts.Perm (ofStreams ours theirs).conflicts := by
  refine (List.perm_ext_iff_of_nodup (nodup_conflicts mine yours) (nodup_conflicts ours theirs)).2 fun conflict => ?_
  simp only [mem_conflicts_iff, hours, htheirs]

theorem conflicts_of_rewritten (hours : ReflTransGen Rewrites ours mine)
    (htheirs : ReflTransGen Rewrites theirs yours) :
    (ofStreams mine yours).conflicts.Perm (ofStreams ours theirs).conflicts :=
  conflicts_perm (Change.isLatest_of_rewritten hours) (Change.isLatest_of_rewritten htheirs)

/-! ## Other times -/

theorem ofWholes_retime (f g : Int → Int) (kind : Conflict.Kind) (mine last : Change) :
    ofWholes kind (mine.retime f) (last.retime g) = (ofWholes kind mine last).retime f g := by
  rw [ofWholes, ofWholes, apply_ite (retime f g)]
  rfl

theorem ofField_retime (f g : Int → Int) (mine last : Change) (field : String) :
    ofField (mine.retime f) (last.retime g) field = (ofField mine last field).retime f g := by
  simp only [ofField, apply_ite (retime f g)]
  rfl

theorem ofUpdates_retime (f g : Int → Int) (mine last : Change) :
    ofUpdates (mine.retime f) (last.retime g) = (ofUpdates mine last).retime f g := by
  have hmine : (mine.retime f).state = mine.state := rfl
  have hlast : (last.retime g).state = last.state := rfl
  rw [ofUpdates, ofUpdates, hmine, hlast]
  split
  · rw [← join_map_retime, List.map_map]
    exact congrArg join (List.map_congr_left fun field _ => ofField_retime f g mine last field)
  · exact ofWholes_retime f g _ mine last

theorem between_retime (f g : Int → Int) (mine last : Change) :
    between (mine.retime f) (last.retime g) = (between mine last).retime f g := by
  simp only [between, apply_ite (retime f g), ← ofWholes_retime, ← ofUpdates_retime]
  rfl

theorem onTarget_retime (hours : Increases f ours) (htheirs : Increases g theirs) (target : String) :
    onTarget (ours.map (Change.retime f)) (theirs.map (Change.retime g)) target =
      (onTarget ours theirs target).retime f g := by
  rw [onTarget, onTarget, Change.latestOn?_retime hours, Change.latestOn?_retime htheirs]
  cases Change.latestOn? target ours with
  | none => rfl
  | some mine =>
      cases Change.latestOn? target theirs with
      | none => rfl
      | some last => exact between_retime f g mine last

theorem ofStreams_retime (hours : Increases f ours) (htheirs : Increases g theirs) :
    ofStreams (ours.map (Change.retime f)) (theirs.map (Change.retime g)) = (ofStreams ours theirs).retime f g := by
  rw [ofStreams_eq, ofStreams_eq, Change.targets_retime, ← join_map_retime, List.map_map]
  exact congrArg join (List.map_congr_left fun target _ => onTarget_retime hours htheirs target)

/-- Whatever is done to the streams that leaves the latest changes alone, the same conflicts are found, maybe in another
order. With other clocks that run forward they are found in the same order and differ in the times of their changes. -/
theorem conflicts_invariant (ours theirs : List Change) :
    (∀ mine yours, ReflTransGen Rewrites ours mine → ReflTransGen Rewrites theirs yours →
      (ofStreams mine yours).conflicts.Perm (ofStreams ours theirs).conflicts) ∧
    ∀ f g, Increases f ours → Increases g theirs →
      (ofStreams (ours.map (Change.retime f)) (theirs.map (Change.retime g))).conflicts =
        (ofStreams ours theirs).conflicts.map (Conflict.retime f g) :=
  ⟨fun _ _ => conflicts_of_rewritten, fun _ _ hours htheirs => congrArg conflicts (ofStreams_retime hours htheirs)⟩

end Library

/-- Two changes of ours change places, by which the conflicts do too, and an older one is put in before the later. Our
clock then runs at twice the speed, theirs goes behind. -/
theorem conflicts_invariant_of_late_arrival :
    let deletion : Change := { id := "o1", time := 4, kind := .delete, target := "posts:a" }
    let update : Change := { id := "o2", time := 3, kind := .update, target := "posts:b" }
    let creation : Change := { id := "o3", time := -1, target := "posts:b", after := some ⟨"superseded"⟩ }
    let ours : List Change := [deletion, update]
    let mine : List Change := [creation, update, deletion]
    let theirs : List Change := [
      { id := "t1", time := 9, kind := .unrelate, target := "posts:b", before := some ⟨"state"⟩ },
      { id := "t2", time := 0, kind := .update, target := "posts:a" }]
    let f : Int → Int := fun time => 2 * time
    let g : Int → Int := fun time => time - 100
    ReflTransGen Rewrites ours mine ∧ Increases f ours ∧ Increases g theirs ∧
      (ofStreams ours theirs).conflicts.map (·.target) = ["posts:a", "posts:b"] ∧
      (ofStreams mine theirs).conflicts.map (·.target) = ["posts:b", "posts:a"] ∧
      (ofStreams mine theirs).conflicts.Perm (ofStreams ours theirs).conflicts ∧
      (ofStreams (ours.map (Change.retime f)) (theirs.map (Change.retime g))).conflicts =
        (ofStreams ours theirs).conflicts.map (Conflict.retime f g) := by
  intro deletion update creation ours mine theirs f g
  have hswapped : Rewrites ours [update, deletion] := @Rewrites.swap [] [] deletion update (by decide)
  have hinserted : Rewrites [update, deletion] mine :=
    @Rewrites.insert [] [update, deletion] creation update (by simp) rfl (by decide)
  have hmine : ReflTransGen Rewrites ours mine := .tail (.single hswapped) hinserted
  have hours : Increases f ours := by decide
  have htheirs : Increases g theirs := by decide
  obtain ⟨hrewritten, hretimed⟩ := conflicts_invariant ours theirs
  exact ⟨hmine, hours, htheirs, by decide, by decide, hrewritten mine theirs hmine .refl,
    hretimed f g hours htheirs⟩

end Analysis

end VersionControl
