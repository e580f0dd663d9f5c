import VersionControl.Proofs.Dict
import VersionControl.Proofs.EventBus.History

/-!
# Counting what is heard

While a component stays subscribed it hears every event of its bus, and each of them once, whatever other handlers come
and go meanwhile and however their calls fail.
-/

namespace VersionControl

namespace EventBus

section Quiet

variable {Event Topic : Type}

/-! ## Attaching -/

theorem IsOrdered.attachTo {bus : EventBus Event Topic} (h : IsOrdered bus) (topics : List Topic) :
    IsOrdered (Attachment.attachTo bus topics).2 := by
  induction topics generalizing bus with
  | nil => exact h
  | cons topic rest ih => exact ih (h.subscribe topic .observer)

theorem subscriptions_attachTo (bus : EventBus Event Topic) (topics : List Topic) :
    (Attachment.attachTo bus topics).2.subscriptions =
      bus.subscriptions ++ (Attachment.attachTo bus topics).1.subscriptions := by
  induction topics generalizing bus with
  | nil => exact (List.append_nil _).symm
  | cons topic rest ih => exact (ih _).trans (List.append_assoc _ _ _)

/-! ## Quiet calls -/

variable [DecidableEq Topic]

/-- Subscriptions come and go, but those in `own` stay. -/
inductive Spares (own : Attachment Topic) : EventBus Event Topic → EventBus Event Topic → Prop
  | refl (bus : EventBus Event Topic) : Spares own bus bus
  | subscribe {bus after : EventBus Event Topic} (topic : Topic) (handler : Handler Event Topic) :
      Spares own bus after → Spares own bus (after.subscribe topic handler).2
  | unsubscribe {bus after : EventBus Event Topic} {topic : Topic} {id : Nat} :
      (topic, id) ∉ own → Spares own bus after → Spares own bus (after.unsubscribe topic id)

/-- A call that returns, has made no other calls and has left the subscriptions in `own` alone. -/
structure IsQuiet (own : Attachment Topic) (bus : EventBus Event Topic) (run : Run Event Topic) : Prop where
  returned : run.Returned
  silent : run.log = []
  spares : Spares own bus run.bus

variable {own : Attachment Topic} {bus mid after : EventBus Event Topic} {call : Call Event Topic}
  {subscribers : List (Subscription Event Topic)}

theorem Spares.trans (h : Spares own bus mid) (hafter : Spares own mid after) : Spares own bus after := by
  induction hafter with
  | refl => exact h
  | subscribe topic handler _ ih => exact .subscribe topic handler ih
  | unsubscribe hforeign _ ih => exact .unsubscribe hforeign ih

/-- As long as all calls are quiet, each subscriber is called once and nobody else is. -/
theorem deliver_of_quiet (event : Event)
    (h : ∀ visit ∈ visits call subscribers bus, IsQuiet own visit.2 (call visit.1 visit.2)) :
    (deliver call event subscribers bus).log = subscribers.map (fun s => ⟨s, event⟩) ∧
      Spares own bus (deliver call event subscribers bus).bus := by
  induction subscribers generalizing bus with
  | nil => exact ⟨rfl, .refl bus⟩
  | cons s rest ih =>
      rw [visits, List.forall_mem_cons] at h
      obtain ⟨hfirst, hrest⟩ := h
      rw [if_pos hfirst.returned] at hrest
      obtain ⟨hlog, hspares⟩ := ih hrest
      rw [deliver_cons_of_returned hfirst.returned]
      refine ⟨?_, hfirst.spares.trans hspares⟩
      rw [entries, hfirst.silent, hlog]
      rfl

/-! ## Components -/

/-- A component holds one identifier for each topic, and its subscriptions are there. -/
structure IsAttached (own : Attachment Topic) (bus : EventBus Event Topic) : Prop where
  ordered : IsOrdered bus
  unique : ∀ topic, ∃ id, ∀ other, (topic, other) ∈ own ↔ other = id
  subscribed : ∀ {topic id}, (topic, id) ∈ own → ∃ s ∈ bus.subscriptions, s.topic = topic ∧ s.id = id

theorem IsAttached.spares (h : IsAttached own bus) (hspares : Spares own bus after) : IsAttached own after := by
  induction hspares with
  | refl => exact h
  | subscribe topic handler _ ih =>
      refine ⟨ih.ordered.subscribe topic handler, h.unique, fun hown => ?_⟩
      obtain ⟨s, hs, hentry⟩ := ih.subscribed hown
      exact ⟨s, List.mem_append_left _ hs, hentry⟩
  | @unsubscribe _ topic id hforeign _ ih =>
      refine ⟨ih.ordered.unsubscribe topic id, h.unique, fun hown => ?_⟩
      obtain ⟨s, hs, rfl, rfl⟩ := ih.subscribed hown
      refine ⟨s, mem_unsubscribe.2 ⟨hs, ?_⟩, rfl, rfl⟩
      rintro ⟨rfl, rfl⟩
      exact hforeign hown

/-- Of the subscribers to a topic exactly one is the component's. -/
theorem IsAttached.filter_subscribersOf (h : IsAttached own bus) (topic : Topic) :
    ∃ s, (bus.subscribersOf topic).filter (fun s => own.any fun entry => entry.2 = s.id) = [s] := by
  obtain ⟨id, hid⟩ := h.unique topic
  obtain ⟨mine, hmine, htopic, rfl⟩ := h.subscribed ((hid id).2 rfl)
  have hnodup : (bus.subscribersOf topic).Nodup :=
    .of_map Subscription.id (List.pairwise_map.2 ((h.ordered.subscribersOf topic).imp Nat.ne_of_lt))
  refine ⟨mine, List.perm_singleton.1 ((List.perm_ext_iff_of_nodup (hnodup.filter _) (List.nodup_singleton mine)).2
    fun s => ?_)⟩
  rw [List.mem_filter, mem_subscribersOf, List.mem_singleton]
  constructor
  · rintro ⟨⟨hs, rfl⟩, hcalled⟩
    obtain ⟨⟨topic, called⟩, hcalled, heq⟩ := List.any_eq_true.1 hcalled
    obtain rfl : called = s.id := by simpa using heq
    obtain ⟨other, hother, rfl, hsame⟩ := h.subscribed hcalled
    obtain rfl := eq_of_ascending h.ordered.ascending hother hs hsame
    exact eq_of_ascending h.ordered.ascending hs hmine ((hid other.id).1 hcalled)
  · rintro rfl
    exact ⟨⟨hmine, htopic⟩, List.any_eq_true.2 ⟨(topic, s.id), (hid s.id).2 rfl, by simp⟩⟩

end Quiet

variable {own : Attachment BranchEvent.Topic} {bus : BranchBus} {call : Call BranchEvent BranchEvent.Topic}
  {event : BranchEvent} {name : String} {counts : Metrics}

theorem isAttached_attach (h : IsOrdered bus) :
    IsAttached (Attachment.attach bus).1 (Attachment.attach bus).2 where
  ordered := h.attachTo BranchEvent.Topic.all
  unique topic := by
    have hown : (Attachment.attach bus).1 = [(.created, bus.nextId), (.deleted, bus.nextId + 1),
      (.renamed, bus.nextId + 2), (.checkedOut, bus.nextId + 3)] := rfl
    rw [hown]
    cases topic with
    | created => exact ⟨bus.nextId, fun other => by simp⟩
    | deleted => exact ⟨bus.nextId + 1, fun other => by simp⟩
    | renamed => exact ⟨bus.nextId + 2, fun other => by simp⟩
    | checkedOut => exact ⟨bus.nextId + 3, fun other => by simp⟩
  subscribed {topic id} hown := by
    refine ⟨{ id, topic, handler := .observer }, ?_, rfl, rfl⟩
    rw [Attachment.attach, subscriptions_attachTo]
    exact List.mem_append_right _ (List.mem_map_of_mem hown)

theorem IsAttached.observe (h : IsAttached own bus) (event : BranchEvent) (counts : Metrics) :
    MetricsComponent.observe ((bus.subscribersOf (topicOf event)).map fun s => ⟨s, event⟩) ⟨own, counts⟩ =
      ⟨own, counts.count event⟩ := by
  obtain ⟨s, hs⟩ := h.filter_subscribersOf (topicOf event)
  have hcalls : ((bus.subscribersOf (topicOf event)).map fun s =>
      (⟨s, event⟩ : VersionControl.Delivery)).filter own.isCalledBy = [⟨s, event⟩] := by
    rw [List.filter_map]
    exact congrArg (List.map _) hs
  rw [MetricsComponent.observe, hcalls]
  rfl

/-! ## Events in turn -/

/-- The events are emitted one after the other, and all calls of their emissions are quiet. What a call does may differ
from one emission to the next. -/
inductive Hears (own : Attachment BranchEvent.Topic) : WatchedBus → List BranchEvent → WatchedBus → Prop
  | nil (watched : WatchedBus) : Hears own watched [] watched
  | cons {watched after : WatchedBus} {event : BranchEvent} {events : List BranchEvent}
      {call : Call BranchEvent BranchEvent.Topic} :
      (∀ visit ∈ visits call (watched.bus.subscribersOf (topicOf event)) watched.bus,
        IsQuiet own visit.2 (call visit.1 visit.2)) →
      Hears own (watched.hear (watched.bus.emitThrough call event)) events after →
      Hears own watched (event :: events) after

/-- A component that is subscribed has counted the events it is meant to count. -/
structure Counts (name : String) (own : Attachment BranchEvent.Topic) (counts : Metrics) (watched : WatchedBus) :
    Prop where
  attached : IsAttached own watched.bus
  counted : watched.metrics.get? name = some { attachment := own, metrics := counts }

variable {watched later : WatchedBus} {events : List BranchEvent}

theorem Counts.hear (h : Counts name own counts watched)
    (hquiet : ∀ visit ∈ visits call (watched.bus.subscribersOf (topicOf event)) watched.bus,
      IsQuiet own visit.2 (call visit.1 visit.2)) :
    Counts name own (counts.count event) (watched.hear (watched.bus.emitThrough call event)) := by
  obtain ⟨hlog, hspares⟩ := deliver_of_quiet event hquiet
  refine ⟨h.attached.spares hspares, ?_⟩
  rw [WatchedBus.hear, Dict.get?_map, h.counted, emitThrough, hlog]
  exact congrArg some (h.attached.observe event counts)

theorem Counts.hears (h : Counts name own counts watched) (hhears : Hears own watched events later) :
    Counts name own (events.foldl Metrics.count counts) later := by
  induction hhears generalizing counts with
  | nil => exact h
  | cons hquiet _ ih => exact ih (h.hear hquiet)

/-! ## Handlers that keep to themselves -/

section Polite

variable {Event Topic : Type}

mutual
/-- A handler that leaves the subscriptions in `own` alone and neither clears the bus nor emits on it. It may fail, and
subscribe other handlers of that kind. -/
inductive IsPolite (own : Attachment Topic) : Handler Event Topic → Prop
  | missing : IsPolite own .missing
  | observer : IsPolite own .observer
  | script {tag : String} {commands : List (Command Event Topic)} :
      (∀ command ∈ commands, IsPoliteCommand own command) → IsPolite own (.script tag commands)

inductive IsPoliteCommand (own : Attachment Topic) : Command Event Topic → Prop
  | fail : IsPoliteCommand own .fail
  | subscribe {topic : Topic} {handler : Handler Event Topic} :
      IsPolite own handler → IsPoliteCommand own (.subscribe topic handler)
  | unsubscribe {topic : Topic} {id : Nat} : (topic, id) ∉ own → IsPoliteCommand own (.unsubscribe topic id)
end

def AllPolite (own : Attachment Topic) (bus : EventBus Event Topic) : Prop :=
  ∀ s ∈ bus.subscriptions, IsPolite own s.handler

variable {own : Attachment Topic} {bus : EventBus Event Topic} {subscribers : List (Subscription Event Topic)}
  {handler : Handler Event Topic} {command : Command Event Topic} {commands : List (Command Event Topic)}

theorem AllPolite.subscribe (h : AllPolite own bus) (topic : Topic) (hhandler : IsPolite own handler) :
    AllPolite own (bus.subscribe topic handler).2 := by
  intro s hs
  rcases List.mem_append.1 hs with hs | hs
  · exact h s hs
  · rw [List.mem_singleton.1 hs]
    exact hhandler

theorem AllPolite.attachTo (h : AllPolite own bus) (topics : List Topic) :
    AllPolite own (Attachment.attachTo bus topics).2 := by
  induction topics generalizing bus with
  | nil => exact h
  | cons topic rest ih => exact ih (h.subscribe topic .observer)

variable [DecidableEq Topic]

theorem AllPolite.unsubscribe (h : AllPolite own bus) (topic : Topic) (id : Nat) :
    AllPolite own (bus.unsubscribe topic id) :=
  fun s hs => h s (mem_unsubscribe.1 hs).1

variable (emit : Event → EventBus Event Topic → Emission Event Topic)

theorem isQuiet_runCommand (hcommand : IsPoliteCommand own command) (hbus : AllPolite own bus) :
    IsQuiet own bus (runCommand emit bus command) ∧ AllPolite own (runCommand emit bus command).bus := by
  cases hcommand with
  | fail => exact ⟨⟨.inr rfl, rfl, .refl bus⟩, hbus⟩
  | subscribe hhandler => exact ⟨⟨.inl rfl, rfl, .subscribe _ _ (.refl bus)⟩, hbus.subscribe _ hhandler⟩
  | unsubscribe hforeign => exact ⟨⟨.inl rfl, rfl, .unsubscribe hforeign (.refl bus)⟩, hbus.unsubscribe _ _⟩

theorem isQuiet_runCommands (hcommands : ∀ command ∈ commands, IsPoliteCommand own command)
    (hbus : AllPolite own bus) :
    IsQuiet own bus (runCommands emit commands bus) ∧ AllPolite own (runCommands emit commands bus).bus := by
  induction commands generalizing bus with
  | nil => exact ⟨⟨.inl rfl, rfl, .refl bus⟩, hbus⟩
  | cons command rest ih =>
      rw [List.forall_mem_cons] at hcommands
      obtain ⟨hfirst, hpolite⟩ := isQuiet_runCommand emit hcommands.1 hbus
      rw [runCommands]
      split
      case isTrue =>
        obtain ⟨hothers, hlast⟩ := ih hcommands.2 hpolite
        refine ⟨⟨hothers.returned, ?_, hfirst.spares.trans hothers.spares⟩, hlast⟩
        exact List.append_eq_nil_iff.2 ⟨hfirst.silent, hothers.silent⟩
      case isFalse => exact ⟨hfirst, hpolite⟩

theorem isQuiet_runHandler (hhandler : IsPolite own handler) (hbus : AllPolite own bus) :
    IsQuiet own bus (runHandler emit bus handler) ∧ AllPolite own (runHandler emit bus handler).bus := by
  cases hhandler with
  | missing => exact ⟨⟨.inr rfl, rfl, .refl bus⟩, hbus⟩
  | observer => exact ⟨⟨.inl rfl, rfl, .refl bus⟩, hbus⟩
  | script hcommands => exact isQuiet_runCommands emit hcommands hbus

theorem isQuiet_visits (event : Event) (hsubscribers : ∀ s ∈ subscribers, IsPolite own s.handler)
    (hbus : AllPolite own bus) :
    (∀ visit ∈ visits (fun s bus => runHandler emit bus s.handler) subscribers bus,
      IsQuiet own visit.2 (runHandler emit visit.2 visit.1.handler)) ∧
    AllPolite own (deliver (fun s bus => runHandler emit bus s.handler) event subscribers bus).bus := by
  induction subscribers generalizing bus with
  | nil => exact ⟨by simp [visits], hbus⟩
  | cons s rest ih =>
      rw [List.forall_mem_cons] at hsubscribers
      obtain ⟨hfirst, hpolite⟩ := isQuiet_runHandler emit hsubscribers.1 hbus
      obtain ⟨hothers, hlast⟩ := ih hsubscribers.2 hpolite
      rw [visits, if_pos hfirst.returned, deliver_cons_of_returned hfirst.returned]
      exact ⟨List.forall_mem_cons.2 ⟨hfirst, hothers⟩, hlast⟩

end Polite

/-- A bus whose handlers are all polite hears events in this way, and stays such a bus. -/
theorem hears_emit (hbus : AllPolite own watched.bus) (events : List BranchEvent) :
    Hears own watched events (events.foldl (fun bus event => (bus.emit event).2) watched) ∧
      AllPolite own (events.foldl (fun bus event => (bus.emit event).2) watched).bus := by
  induction events generalizing watched with
  | nil => exact ⟨.nil watched, hbus⟩
  | cons event rest ih =>
      have hsubscribers : ∀ s ∈ watched.bus.subscribersOf (topicOf event), IsPolite own s.handler :=
        fun s hs => hbus s (mem_subscribersOf.1 hs).1
      obtain ⟨hquiet, hpolite⟩ :=
        isQuiet_visits (emitWithin (maxDepth - 1)) event hsubscribers hbus
      obtain ⟨hhears, hlast⟩ := @ih (watched.emit event).2 hpolite
      exact ⟨.cons hquiet hhears, hlast⟩

end EventBus

end VersionControl
