import VersionControl.Proofs.Branch.Tally
import VersionControl.Proofs.EventBus.Counting
import VersionControl.Session

/-!
# Metrics of a session

Metrics that are attached to a bus before a session have counted at its end what the calls have come to, and so tell how
many refs are stored, whoever else was on the bus meanwhile.
-/

namespace VersionControl

open Branch (Tallies tallies_start)
open EventBus (AllPolite Counts Hears IsPolite Reaches Spares)

/-- Calls from a first store and bus on. Each is answered by the store, and its events are emitted while all handlers
keep to themselves. Between the calls others come to the bus and leave it, but the component `name`, which holds the
subscriptions in `own`, stays. -/
inductive Conducts (name : String) (own : Attachment BranchEvent.Topic) (start : MemoryStore) (first : WatchedBus) :
    List BranchCall → MemoryStore → WatchedBus → Prop
  | start : Conducts name own start first [] start first
  | others {calls : List BranchCall} {store : MemoryStore} {watched later : WatchedBus} :
      Conducts name own start first calls store watched → Spares own watched.bus later.bus →
      later.metrics.get? name = watched.metrics.get? name → Conducts name own start first calls store later
  | call {calls : List BranchCall} {store : MemoryStore} {watched later : WatchedBus} (command : BranchCommand) :
      Conducts name own start first calls store watched →
      Hears own watched (BranchCall.outcome ⟨command, store⟩).2.published later →
      Conducts name own start first (calls ++ [⟨command, store⟩]) (BranchCall.outcome ⟨command, store⟩).2.store
        later

variable {name : String} {own : Attachment BranchEvent.Topic} {start store : MemoryStore} {first watched : WatchedBus}
  {calls : List BranchCall}

theorem Conducts.tallies (h : Conducts name own start first calls store watched) (hfirst : Counts name own {} first) :
    ∃ counts, Counts name own counts watched ∧ Tallies start calls store counts := by
  induction h with
  | start => exact ⟨{}, hfirst, tallies_start start⟩
  | others _ hspares hkept ih =>
      obtain ⟨counts, hcounts, htallies⟩ := ih
      exact ⟨counts, ⟨hcounts.attached.spares hspares, hkept.trans hcounts.counted⟩, htallies⟩
  | call command _ hhears ih =>
      obtain ⟨counts, hcounts, htallies⟩ := ih
      exact ⟨_, hcounts.hears hhears, htallies.call command⟩

theorem counts_attachMetrics (hbus : Reaches .empty first.bus) (hnew : first.metrics.get? name = none) :
    Counts name (Attachment.attach first.bus).1 {} (first.attachMetrics name) := by
  have hfirst : first.attachMetrics name = { first with
      bus := (Attachment.attach first.bus).2
      metrics := first.metrics.insert name { attachment := (Attachment.attach first.bus).1 } } := by
    rw [WatchedBus.attachMetrics, hnew]
    rfl
  rw [hfirst]
  exact ⟨EventBus.isAttached_attach (hbus.isOrdered EventBus.isOrdered_empty), by simp⟩

/-- Metrics that were new when the calls began have counted what succeeded, and nothing else. -/
theorem tallies_of_conducts (hbus : Reaches .empty first.bus) (hnew : first.metrics.get? name = none)
    (h : Conducts name (Attachment.attach first.bus).1 start (first.attachMetrics name) calls store watched) :
    ∃ counts, watched.metrics? name = some counts ∧ Tallies start calls store counts ∧
      counts.forced ≤ counts.deleted := by
  obtain ⟨counts, hcounts, htallies⟩ := h.tallies (counts_attachMetrics hbus hnew)
  refine ⟨counts, ?_, htallies, htallies.forced_le⟩
  rw [WatchedBus.metrics?, hcounts.counted]
  rfl

/-! ## Sessions that run -/

namespace Session

/-- Performs the commands one after the other, whether they succeed or not. -/
def run (commands : List BranchCommand) (session : Session MemoryStore) : Session MemoryStore :=
  commands.foldl (fun session command => (perform command.operation session).2.2) session

end Session

/-- The calls that the commands come to, each with the store that it finds. -/
def BranchCall.along : List BranchCommand → MemoryStore → List BranchCall
  | [], _ => []
  | command :: rest, store => ⟨command, store⟩ :: along rest (BranchCall.outcome ⟨command, store⟩).2.store

/-- A session whose handlers all keep to themselves conducts its calls in this way. -/
theorem conducts_run (commands : List BranchCommand) (h : Conducts name own start first calls store watched)
    (hpolite : AllPolite own watched.bus) :
    ∃ later, (Session.run commands ⟨store, some watched⟩).bus = some later ∧
      Conducts name own start first (calls ++ BranchCall.along commands store)
        (Session.run commands ⟨store, some watched⟩).store later := by
  induction commands generalizing calls store watched with
  | nil => exact ⟨watched, rfl, by rwa [BranchCall.along, List.append_nil]⟩
  | cons command rest ih =>
      obtain ⟨hhears, hstill⟩ := EventBus.hears_emit hpolite (BranchCall.outcome ⟨command, store⟩).2.published
      have hlater := ih (h.call command hhears) hstill
      rw [List.append_assoc] at hlater
      exact hlater

/-- Four refs, of which one has no branch name and one leads nowhere. -/
def crowded : MemoryStore :=
  ⟨.ofList [("HEAD", "ref: main\n"), ("refs/heads/HEAD", "c7\n"), ("refs/heads/blank", " \n"),
    ("refs/heads/main", "c1\n"), ("refs/heads/old", "c2\n")]⟩

/-- Subscribes another handler, takes itself away and fails. -/
def brief : Handler := .script "brief" [.subscribe .checkedOut .missing, .unsubscribe .created 0, .fail]

def errands : List BranchCommand :=
  [.checkout "new" true, .checkout "missing" false, .remove "new" false, .remove "blank" true, .remove "old" true,
    .rename "main" "old", .create "old" none, .remove "old" false, .create "main" (some "old"), .checkout "main" false]

/-- A brief handler is on the bus before the metrics. Of ten calls four are refused, and one creates the branch that it
checks out. -/
theorem tallies_of_conducts_of_errands :
    let watched : WatchedBus := { bus := (EventBus.empty.subscribe .created brief).2 }
    let session := Session.run errands ⟨crowded, some (watched.attachMetrics "counter")⟩
    session.bus.bind (·.metrics? "counter") =
        some { created := 2, deleted := 2, forced := 1, renamed := 1, checkouts := 2 } ∧
      Branch.refCount session.store + 2 = 4 + 2 := by
  intro watched session
  have hbrief : IsPolite (Attachment.attach watched.bus).1 brief := .script <|
    List.forall_mem_cons.2 ⟨.subscribe .missing, List.forall_mem_cons.2 ⟨.unsubscribe (by decide),
      List.forall_mem_cons.2 ⟨.fail, nofun⟩⟩⟩
  have hempty : AllPolite (Attachment.attach watched.bus).1 (.empty : BranchBus) := nofun
  have hpolite := (hempty.subscribe .created hbrief).attachTo BranchEvent.Topic.all
  have hstart : Conducts "counter" (Attachment.attach watched.bus).1 crowded (watched.attachMetrics "counter") []
      crowded (watched.attachMetrics "counter") := .start
  obtain ⟨later, hbus, hconducts⟩ := conducts_run errands hstart hpolite
  obtain ⟨counts, hcounts, htallies, -⟩ :=
    tallies_of_conducts (.subscribe .created brief (.refl .empty)) rfl hconducts
  have hcounted : counts = { created := 2, deleted := 2, forced := 1, renamed := 1, checkouts := 2 } :=
    calc counts
      _ = ⟨counts.created, counts.deleted, counts.forced, counts.renamed, counts.checkouts⟩ := rfl
      _ = { created := 2, deleted := 2, forced := 1, renamed := 1, checkouts := 2 } := by
        rw [htallies.created, htallies.deleted, htallies.forced, htallies.renamed, htallies.checkouts]
        decide +kernel
  have hrefs := htallies.refs
  rw [hcounted, show Branch.refCount crowded = 4 by decide +kernel] at hrefs
  exact ⟨by rw [hbus, ← hcounted]; exact hcounts, hrefs⟩

end VersionControl
