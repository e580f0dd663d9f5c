import Mathlib.Tactic.Choose
import VersionControl.EventBus.Components
import VersionControl.Proofs.EventBus.Delivery

/-!
# The history of a bus

Whatever is done to the subscriptions of a bus, by whom ever and however deep inside emissions, is a history of three
kinds of deeds. The subscriptions of the bus are those of its history that no later deed has ended, and an identifier
stands for one of them only.
-/

namespace VersionControl

/-- What a component subscribes when it is attached. -/
def Attachment.subscriptions {Event Topic : Type} (attachment : Attachment Topic) :
    List (EventBus.Subscription Event Topic) :=
  attachment.map fun (topic, id) => { id, topic, handler := .observer }

namespace EventBus

variable {Event Topic : Type}

inductive Deed (Event Topic : Type)
  | subscribed (s : Subscription Event Topic)
  | unsubscribed (topic : Topic) (id : Nat)
  | cleared

namespace Deed

def subscription? : Deed Event Topic → Option (Subscription Event Topic)
  | subscribed s => some s
  | unsubscribed .. | cleared => none

def ends [DecidableEq Topic] (s : Subscription Event Topic) : Deed Event Topic → Bool
  | subscribed _ => false
  | unsubscribed topic id => s.topic = topic && s.id = id
  | cleared => true

end Deed

/-- The subscriptions that were ever made. -/
def made (history : List (Deed Event Topic)) : List (Subscription Event Topic) :=
  history.filterMap Deed.subscription?

theorem made_append (before later : List (Deed Event Topic)) : made (before ++ later) = made before ++ made later :=
  List.filterMap_append

theorem made_subscribed (subscriptions : List (Subscription Event Topic)) :
    made (subscriptions.map .subscribed) = subscriptions := by
  simp [made, List.filterMap_map, Function.comp_def, Deed.subscription?]

variable [DecidableEq Topic]

/-- The subscriptions that no deed has ended since they were made. -/
def outstanding : List (Deed Event Topic) → List (Subscription Event Topic)
  | [] => []
  | .subscribed s :: later => if later.any (Deed.ends s) then outstanding later else s :: outstanding later
  | .unsubscribed .. :: later | .cleared :: later => outstanding later

/-- Calls lead from one state of a bus to another, and the history tells what they and the handlers that they called
have done to the subscriptions. A handler may do anything that leads from one state to another in this sense. -/
inductive Runs [Topical Event Topic] : EventBus Event Topic → List (Deed Event Topic) → EventBus Event Topic → Prop
  | refl (bus : EventBus Event Topic) : Runs bus [] bus
  | subscribe {bus after : EventBus Event Topic} {history : List (Deed Event Topic)} (topic : Topic)
      (handler : Handler Event Topic) :
      Runs bus history after →
      Runs bus (history ++ [.subscribed { id := (after.subscribe topic handler).1, topic, handler }])
        (after.subscribe topic handler).2
  | unsubscribe {bus after : EventBus Event Topic} {history : List (Deed Event Topic)} (topic : Topic) (id : Nat) :
      Runs bus history after → Runs bus (history ++ [.unsubscribed topic id]) (after.unsubscribe topic id)
  | clear {bus after : EventBus Event Topic} {history : List (Deed Event Topic)} :
      Runs bus history after → Runs bus (history ++ [.cleared]) after.clear
  | attach {bus after : EventBus Event Topic} {history : List (Deed Event Topic)} (topics : List Topic) :
      Runs bus history after →
      Runs bus (history ++ (Attachment.attachTo after topics).1.subscriptions.map .subscribed)
        (Attachment.attachTo after topics).2
  | detach {bus after : EventBus Event Topic} {history : List (Deed Event Topic)} (attachment : Attachment Topic) :
      Runs bus history after →
      Runs bus (history ++ attachment.map fun (topic, id) => .unsubscribed topic id) (attachment.detach after)
  | emit {bus after : EventBus Event Topic} {history : List (Deed Event Topic)} {call : Call Event Topic}
      {deeds : Subscription Event Topic → EventBus Event Topic → List (Deed Event Topic)} (event : Event) :
      Runs bus history after → (∀ s state, Runs state (deeds s state) (call s state).bus) →
      Runs bus (history ++
          (visits call (after.subscribersOf (topicOf event)) after).flatMap fun (s, state) => deeds s state)
        (after.emitThrough call event).bus

variable {bus after : EventBus Event Topic} {history before later : List (Deed Event Topic)} {topic : Topic}
  {s other : Subscription Event Topic} {id : Nat}

section Runs

variable [Topical Event Topic]

theorem Runs.trans {mid : EventBus Event Topic} (h : Runs bus history mid) (hlater : Runs mid later after) :
    Runs bus (history ++ later) after := by
  induction hlater with
  | refl => rwa [List.append_nil]
  | subscribe topic handler _ ih =>
      rw [← List.append_assoc]
      exact (ih h).subscribe topic handler
  | unsubscribe topic id _ ih =>
      rw [← List.append_assoc]
      exact (ih h).unsubscribe topic id
  | clear _ ih =>
      rw [← List.append_assoc]
      exact (ih h).clear
  | attach topics _ ih =>
      rw [← List.append_assoc]
      exact (ih h).attach topics
  | detach attachment _ ih =>
      rw [← List.append_assoc]
      exact (ih h).detach attachment
  | emit event _ hcall ih =>
      rw [← List.append_assoc]
      exact (ih h).emit event hcall

/-- What a handler finds when it is called is the end of a run, too, although the emission goes on. -/
theorem Runs.visits {call : Call Event Topic}
    {deeds : Subscription Event Topic → EventBus Event Topic → List (Deed Event Topic)}
    (hcall : ∀ s state, Runs state (deeds s state) (call s state).bus)
    (subscribers : List (Subscription Event Topic)) (h : Runs bus history after) :
    ∀ visit ∈ visits call subscribers after, ∃ later, Runs bus (history ++ later) visit.2 := by
  induction subscribers generalizing history after with
  | nil => simp [EventBus.visits]
  | cons s rest ih =>
      rw [EventBus.visits, List.forall_mem_cons]
      refine ⟨⟨[], by rwa [List.append_nil]⟩, fun visit hvisit => ?_⟩
      split at hvisit
      case isTrue =>
        obtain ⟨later, hlater⟩ := ih (h.trans (hcall s after)) visit hvisit
        exact ⟨deeds s after ++ later, by rwa [← List.append_assoc]⟩
      case isFalse => cases hvisit

end Runs

/-! ## Outstanding subscriptions -/

theorem outstanding_append (before later : List (Deed Event Topic)) :
    outstanding (before ++ later) =
      (outstanding before).filter (fun s => !later.any (Deed.ends s)) ++ outstanding later := by
  induction before with
  | nil => rfl
  | cons deed rest ih =>
      cases deed with
      | subscribed s =>
          rw [List.cons_append, outstanding, outstanding, List.any_append, ih]
          cases rest.any (Deed.ends s) <;> cases hlater : later.any (Deed.ends s) <;> simp [hlater]
      | unsubscribed | cleared => exact ih

theorem outstanding_sublist (history : List (Deed Event Topic)) : (outstanding history).Sublist (made history) := by
  induction history with
  | nil => exact .slnil
  | cons deed rest ih =>
      cases deed with
      | subscribed s =>
          rw [outstanding]
          split
          · exact ih.cons s
          · exact ih.cons_cons s
      | unsubscribed | cleared => exact ih

/-! ## What the history tells -/

/-- A bus is as its history tells, and its next identifier is above all that were given out. -/
structure Records (history : List (Deed Event Topic)) (bus : EventBus Event Topic) : Prop where
  subscriptions : bus.subscriptions = outstanding history
  ascending : (made history).Pairwise (fun a b => a.id < b.id)
  below : ∀ s ∈ made history, s.id < bus.nextId

theorem records_empty : Records [] (.empty : EventBus Event Topic) := ⟨rfl, .nil, fun _ h => by cases h⟩

theorem Records.subscribe (h : Records history bus) (topic : Topic) (handler : Handler Event Topic) :
    Records (history ++ [.subscribed { id := (bus.subscribe topic handler).1, topic, handler }])
      (bus.subscribe topic handler).2 where
  subscriptions := by
    rw [outstanding_append, ← h.subscriptions]
    exact congrArg (· ++ _) (List.filter_eq_self.2 fun _ _ => rfl).symm
  ascending := by
    rw [made_append]
    refine List.pairwise_append.2 ⟨h.ascending, List.pairwise_singleton _ _, fun s hs next hnext => ?_⟩
    rw [List.mem_singleton.1 hnext]
    exact h.below s hs
  below s hs := by
    rw [made_append, List.mem_append] at hs
    rcases hs with hs | hs
    · exact Nat.lt_succ_of_lt (h.below s hs)
    · rw [List.mem_singleton.1 hs]
      exact Nat.lt_succ_self bus.nextId

/-- A deed that makes no subscription only ends some. -/
theorem Records.ended {deed : Deed Event Topic} (h : Records history bus) (hdeed : deed.subscription? = none)
    (hafter : after.subscriptions = bus.subscriptions.filter (!deed.ends ·)) (hnext : after.nextId = bus.nextId) :
    Records (history ++ [deed]) after := by
  have hmade : made (history ++ [deed]) = made history := by simp [made, hdeed]
  have hnone : outstanding [deed] = [] := by
    cases deed with
    | subscribed => cases hdeed
    | unsubscribed | cleared => rfl
  refine ⟨?_, by rw [hmade]; exact h.ascending, fun s hs => ?_⟩
  · rw [outstanding_append, hnone, List.append_nil, hafter, h.subscriptions]
    simp
  · rw [hnext]
    exact h.below s (hmade ▸ hs)

theorem Records.unsubscribe (h : Records history bus) (topic : Topic) (id : Nat) :
    Records (history ++ [.unsubscribed topic id]) (bus.unsubscribe topic id) :=
  h.ended rfl rfl rfl

theorem Records.clear (h : Records history bus) : Records (history ++ [.cleared]) bus.clear :=
  h.ended rfl (by simp [EventBus.clear, Deed.ends]) rfl

theorem Records.attachTo (h : Records history bus) (topics : List Topic) :
    Records (history ++ (Attachment.attachTo bus topics).1.subscriptions.map .subscribed)
      (Attachment.attachTo bus topics).2 := by
  induction topics generalizing history bus with
  | nil => simpa [Attachment.attachTo, Attachment.subscriptions] using h
  | cons topic rest ih =>
      have hfirst := ih (h.subscribe topic .observer)
      rw [List.append_assoc] at hfirst
      exact hfirst

theorem Records.detach (h : Records history bus) (attachment : Attachment Topic) :
    Records (history ++ attachment.map fun (topic, id) => .unsubscribed topic id) (attachment.detach bus) := by
  induction attachment generalizing history bus with
  | nil => simpa [Attachment.detach] using h
  | cons entry rest ih =>
      have hfirst := ih (h.unsubscribe entry.1 entry.2)
      rw [List.append_assoc] at hfirst
      exact hfirst

theorem Records.deliver {call : Call Event Topic}
    {deeds : Subscription Event Topic → EventBus Event Topic → List (Deed Event Topic)}
    (hcall : ∀ s state history, Records history state → Records (history ++ deeds s state) (call s state).bus)
    (h : Records history bus) (event : Event) (subscribers : List (Subscription Event Topic)) :
    Records (history ++ (visits call subscribers bus).flatMap fun (s, state) => deeds s state)
      (deliver call event subscribers bus).bus := by
  induction subscribers generalizing history bus with
  | nil => simpa [visits, EventBus.deliver] using h
  | cons s rest ih =>
      have hfirst := hcall s bus history h
      by_cases hreturned : (call s bus).Returned
      · rw [visits, if_pos hreturned, deliver_cons_of_returned hreturned, List.flatMap_cons, ← List.append_assoc]
        exact ih hfirst
      · rw [visits, if_neg hreturned, deliver_cons_of_not_returned hreturned, List.flatMap_singleton]
        exact hfirst

theorem Runs.records [Topical Event Topic] (h : Runs bus history after) (hbus : Records before bus) :
    Records (before ++ history) after := by
  -- handlers start from buses with a history of their own, so that the history before is arbitrary
  induction h generalizing before with
  | refl => simpa using hbus
  | subscribe topic handler _ ih =>
      rw [← List.append_assoc]
      exact (ih hbus).subscribe topic handler
  | unsubscribe topic id _ ih =>
      rw [← List.append_assoc]
      exact (ih hbus).unsubscribe topic id
  | clear _ ih =>
      rw [← List.append_assoc]
      exact (ih hbus).clear
  | attach topics _ ih =>
      rw [← List.append_assoc]
      exact (ih hbus).attachTo topics
  | detach attachment _ ih =>
      rw [← List.append_assoc]
      exact (ih hbus).detach attachment
  | emit event _ _ ih ihcall =>
      rw [← List.append_assoc]
      exact (ih hbus).deliver (fun s state _ hstate => ihcall s state hstate) event _

/-- However deep emissions go inside each other, they have a history. -/
theorem Reaches.exists_runs [Topical Event Topic] (h : Reaches bus after) : ∃ history, Runs bus history after := by
  induction h with
  | refl bus => exact ⟨[], .refl bus⟩
  | subscribe topic handler _ ih =>
      obtain ⟨history, hruns⟩ := ih
      exact ⟨_, hruns.subscribe topic handler⟩
  | unsubscribe topic id _ ih =>
      obtain ⟨history, hruns⟩ := ih
      exact ⟨_, hruns.unsubscribe topic id⟩
  | clear _ ih =>
      obtain ⟨history, hruns⟩ := ih
      exact ⟨_, hruns.clear⟩
  | emit event _ _ ih ihcall =>
      obtain ⟨history, hruns⟩ := ih
      choose deeds hdeeds using ihcall
      exact ⟨_, hruns.emit event hdeeds⟩

/-! ## Removal -/

theorem unsubscribe_eq_self (h : ∀ s ∈ bus.subscriptions, ¬(s.topic = topic ∧ s.id = id)) :
    bus.unsubscribe topic id = bus := by
  have hkept : bus.subscriptions.filter (fun s => !(s.topic = topic && s.id = id)) = bus.subscriptions :=
    List.filter_eq_self.2 fun s hs => by simpa [-not_and, not_and_or] using h s hs
  rw [EventBus.unsubscribe, hkept]

theorem mem_detach {attachment : Attachment Topic} : s ∈ (attachment.detach bus).subscriptions ↔
    s ∈ bus.subscriptions ∧ (s.topic, s.id) ∉ attachment := by
  induction attachment generalizing bus with
  | nil => simp [Attachment.detach]
  | cons entry rest ih =>
      have hrest : s ∈ (Attachment.detach rest (bus.unsubscribe entry.1 entry.2)).subscriptions ↔ _ := ih
      rw [mem_unsubscribe] at hrest
      rw [List.mem_cons, not_or, Prod.ext_iff, ← and_assoc]
      exact hrest

theorem detach_eq_self {attachment : Attachment Topic}
    (h : ∀ s ∈ bus.subscriptions, (s.topic, s.id) ∉ attachment) :
    attachment.detach bus = bus := by
  induction attachment with
  | nil => rfl
  | cons entry rest ih =>
      have hfirst : bus.unsubscribe entry.1 entry.2 = bus := unsubscribe_eq_self fun s hs hentry =>
        h s hs (List.mem_cons.2 (.inl (Prod.ext hentry.1 hentry.2)))
      have hrest : Attachment.detach rest bus = bus := ih fun s hs hmem => h s hs (List.mem_cons_of_mem _ hmem)
      calc Attachment.detach (entry :: rest) bus
        _ = Attachment.detach rest (bus.unsubscribe entry.1 entry.2) := rfl
        _ = bus := by rw [hfirst, hrest]

/-! ## Identifiers -/

theorem Records.mem_made (h : Records history bus) (hs : s ∈ bus.subscriptions) : s ∈ made history :=
  (outstanding_sublist history).subset (h.subscriptions ▸ hs)

theorem Records.eq_of_id (h : Records history bus) (hs : s ∈ made history) (hother : other ∈ made history)
    (hid : s.id = other.id) : s = other :=
  eq_of_ascending h.ascending hs hother hid

/-- An identifier under which nothing is outstanding may be unsubscribed with no effect. -/
theorem Records.unsubscribe_eq_self (h : Records history bus) (hs : s ∈ made history)
    (hstale : topic ≠ s.topic ∨ s ∉ outstanding history) : bus.unsubscribe topic s.id = bus := by
  refine EventBus.unsubscribe_eq_self fun other hother hmatch => ?_
  obtain rfl := h.eq_of_id (h.mem_made hother) hs hmatch.2
  rcases hstale with htopic | hended
  · exact htopic hmatch.1.symm
  · exact hended (h.subscriptions ▸ hother)

/-- A component is found under no subscription that was made before it was attached, or since. -/
theorem Records.not_mem_attachment {attachment : Attachment Topic}
    (h : Records (before ++ attachment.subscriptions.map .subscribed ++ later) bus)
    (hs : s ∈ made before ∨ s ∈ made later) : (s.topic, s.id) ∉ attachment := by
  intro hmem
  have hascending := h.ascending
  rw [made_append, made_append, made_subscribed, List.pairwise_append, List.pairwise_append] at hascending
  obtain ⟨⟨-, -, hbefore⟩, -, hlater⟩ := hascending
  have hsame : ({ s with handler := .observer } : Subscription Event Topic) ∈ attachment.subscriptions :=
    List.mem_map_of_mem hmem
  rcases hs with hs | hs
  · exact Nat.lt_irrefl s.id (hbefore s hs { s with handler := .observer } hsame)
  · exact Nat.lt_irrefl s.id (hlater { s with handler := .observer } (List.mem_append_right _ hsame) s hs)

theorem outstanding_append_of_cleared (h : .cleared ∈ later) : outstanding (before ++ later) = outstanding later := by
  have hnone : (outstanding before).filter (fun s => !later.any (Deed.ends s)) = [] :=
    List.filter_eq_nil_iff.2 fun s _ => by simpa using ⟨_, h, rfl⟩
  rw [outstanding_append, hnone, List.nil_append]

/-! ## What a bus owes its subscribers -/

/-- Identifiers are given out once, the subscribers of a topic are those of the history that are outstanding, and to
unsubscribe an identifier costs no subscription but the one that it was given out for. -/
structure IsAccounted (history : List (Deed Event Topic)) (bus : EventBus Event Topic) : Prop where
  fresh : ∀ before s later, history = before ++ .subscribed s :: later → ∀ other ∈ made before, other.id ≠ s.id
  ordered : ∀ topic, (bus.subscribersOf topic).Pairwise (fun a b => a.id < b.id)
  subscribers : ∀ topic, bus.subscribersOf topic = (outstanding history).filter (·.topic = topic)
  counted : ∀ topic, bus.subscriberCount topic = (outstanding history).countP (·.topic = topic)
  spared : ∀ s ∈ made history, ∀ topic, ∀ other ∈ bus.subscriptions, other ≠ s →
    other ∈ (bus.unsubscribe topic s.id).subscriptions
  stale : ∀ s ∈ made history, ∀ topic, topic ≠ s.topic ∨ s ∉ outstanding history →
    bus.unsubscribe topic s.id = bus

/-- The component that was attached to the topics at `start` can be detached now, `later` having happened since then:
subscriptions that were made before it or after it stay, and if the bus was cleared meanwhile nothing happens at
all. -/
structure IsDetachable (topics : List Topic) (start : EventBus Event Topic) (later : List (Deed Event Topic))
    (bus : EventBus Event Topic) : Prop where
  spared : ∀ s ∈ bus.subscriptions, s ∈ start.subscriptions ∨ s ∈ made later →
    s ∈ ((Attachment.attachTo start topics).1.detach bus).subscriptions
  stale : .cleared ∈ later → (Attachment.attachTo start topics).1.detach bus = bus

theorem Records.isAccounted (h : Records history bus) : IsAccounted history bus where
  fresh := by
    rintro before s later rfl other hother
    have hascending := h.ascending
    rw [made_append, List.pairwise_append] at hascending
    exact Nat.ne_of_lt (hascending.2.2 other hother s List.mem_cons_self)
  ordered topic := by
    rw [EventBus.subscribersOf, h.subscriptions]
    exact (h.ascending.sublist (outstanding_sublist history)).filter _
  subscribers topic := by rw [EventBus.subscribersOf, h.subscriptions]
  counted topic := by
    rw [EventBus.subscriberCount, EventBus.subscribersOf, h.subscriptions, List.countP_eq_length_filter]
  spared s hs topic other hother hne :=
    mem_unsubscribe.2 ⟨hother, fun hmatch => hne (h.eq_of_id (h.mem_made hother) hs hmatch.2)⟩
  stale _ hs _ hstale := h.unsubscribe_eq_self hs hstale

section Runs

variable [Topical Event Topic]

theorem Records.isDetachable {topics : List Topic} {start : EventBus Event Topic} (h : Records before start)
    (hlater : Runs (Attachment.attachTo start topics).2 later bus) : IsDetachable topics start later bus := by
  have hbus := hlater.records (h.attachTo topics)
  refine ⟨fun s hs hforeign => ?_, fun hcleared => detach_eq_self fun s hs => ?_⟩
  · exact mem_detach.2 ⟨hs, hbus.not_mem_attachment (hforeign.imp_left h.mem_made)⟩
  · rw [hbus.subscriptions, outstanding_append_of_cleared hcleared] at hs
    exact hbus.not_mem_attachment (.inr ((outstanding_sublist later).subset hs))

/-- Every run accounts for its subscriptions, and so does the end of every component that was attached on the way. -/
theorem isAccounted_of_runs (h : Runs .empty history bus) : IsAccounted history bus ∧
    ∀ topics before start later, Runs .empty before start → Runs (Attachment.attachTo start topics).2 later bus →
      IsDetachable topics start later bus :=
  ⟨(h.records records_empty).isAccounted, fun _ _ _ _ hbefore hlater =>
    (hbefore.records records_empty).isDetachable hlater⟩

end Runs

/-- A component outlives the clearing of its bus. Two handlers subscribe after that, of which the first, when it is
called, unsubscribes itself under the wrong topic and fails. The component is then detached from a bus on which the
identifiers that it holds are long gone. -/
theorem isAccounted_of_runs_of_late_detachment :
    let component := (Attachment.attach .empty).1
    let cleared := (Attachment.attach .empty).2.clear
    let call : Call BranchEvent BranchEvent.Topic := fun s bus => ⟨bus.unsubscribe .deleted s.id, [], .failed⟩
    let bus := (((cleared.subscribe .created .missing).2.subscribe .deleted .missing).2.emitThrough call
      (.created "a" "c1")).bus
    bus.subscriberCount .created = 1 ∧ bus.subscriberCount .deleted = 1 ∧ bus.unsubscribe .renamed 4 = bus ∧
      component.detach bus = bus := by
  intro component cleared call bus
  let later : List (Deed BranchEvent BranchEvent.Topic) := [.cleared, .subscribed ⟨4, .created, .missing⟩,
    .subscribed ⟨5, .deleted, .missing⟩, .unsubscribed .deleted 4]
  have hcall (s : Subscription BranchEvent BranchEvent.Topic) (state : BranchBus) :
      Runs state [.unsubscribed .deleted s.id] (call s state).bus :=
    (Runs.refl state).unsubscribe BranchEvent.Topic.deleted s.id
  have hafter (start : BranchBus) (before : List (Deed BranchEvent BranchEvent.Topic))
      (h : Runs start before (Attachment.attach .empty).2) : Runs start (before ++ later) bus := by
    have hrun := ((h.clear.subscribe .created .missing).subscribe .deleted .missing).emit (.created "a" "c1") hcall
    simp only [List.append_assoc] at hrun
    exact hrun
  have hmade : ⟨4, .created, .missing⟩ ∈ made ((Attachment.attach .empty).1.subscriptions.map .subscribed ++ later) :=
    List.mem_of_getElem? (i := 4) rfl
  obtain ⟨haccounted, hdetachable⟩ :=
    isAccounted_of_runs (hafter .empty _ ((Runs.refl .empty).attach BranchEvent.Topic.all))
  refine ⟨haccounted.counted .created, haccounted.counted .deleted, ?_, ?_⟩
  · exact haccounted.stale ⟨4, .created, .missing⟩ hmade .renamed (.inl (by decide))
  · have hlate := hdetachable BranchEvent.Topic.all [] .empty later (.refl .empty) (hafter _ [] (.refl _))
    exact hlate.stale List.mem_cons_self

end EventBus

end VersionControl
