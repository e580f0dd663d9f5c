import VersionControl.EventBus.Components
import VersionControl.Proofs.EventBus.Registry

/-!
# Who is called

An emission calls those who were subscribed to its topic when it began, each once and in the order in which they
subscribed. What a call does to the bus, and whether it fails, makes no difference to the calls that follow.
-/

namespace VersionControl.EventBus

variable {Event Topic : Type}

/-- A call has come to its end, or has failed in a way that the bus catches. -/
def Run.Returned (run : Run Event Topic) : Prop := run.ending = .completed ∨ run.ending = .failed

instance (run : Run Event Topic) : Decidable run.Returned := inferInstanceAs (Decidable (_ ∨ _))

variable {bus : EventBus Event Topic} {call : Call Event Topic} {event : Event} {s : Subscription Event Topic}
  {rest : List (Subscription Event Topic)}

/-- What the calls of all given subscribers do, each to the bus that the one before has left. -/
def runs (call : Call Event Topic) :
    List (Subscription Event Topic) → EventBus Event Topic → List (Run Event Topic)
  | [], _ => []
  | s :: rest, bus => call s bus :: runs call rest (call s bus).bus

/-- The calls that a delivery makes, each with the bus that it finds. -/
def visits (call : Call Event Topic) : List (Subscription Event Topic) → EventBus Event Topic →
    List (Subscription Event Topic × EventBus Event Topic)
  | [], _ => []
  | s :: rest, bus => (s, bus) :: if (call s bus).Returned then visits call rest (call s bus).bus else []

/-- A call in the log: the call itself, then those that were made while it ran. -/
def entries (event : Event) (s : Subscription Event Topic) (run : Run Event Topic) :
    List (Delivery Event Topic) :=
  { subscription := s, event } :: run.log

theorem deliver_cons_of_returned (h : (call s bus).Returned) :
    deliver call event (s :: rest) bus =
      { deliver call event rest (call s bus).bus with
        log := entries event s (call s bus) ++ (deliver call event rest (call s bus).bus).log
        called := s :: (deliver call event rest (call s bus).bus).called } := by
  rcases h with h | h <;> simp only [deliver, h, entries]

theorem deliver_cons_of_not_returned (h : ¬(call s bus).Returned) :
    deliver call event (s :: rest) bus =
      { call s bus with log := entries event s (call s bus), called := [s] } := by
  rw [Run.Returned, not_or] at h
  rw [deliver]
  split
  case h_1 hending => exact absurd hending h.1
  case h_2 hending => exact absurd hending h.2
  case h_3 => rfl

/-- A call that does not return ends the delivery, but no call is ever added, repeated or put in another place. -/
theorem called_prefix (call : Call Event Topic) (event : Event)
    (subscribers : List (Subscription Event Topic)) (bus : EventBus Event Topic) :
    (deliver call event subscribers bus).called <+: subscribers := by
  induction subscribers generalizing bus with
  | nil => exact List.prefix_rfl
  | cons s rest ih =>
      by_cases hreturned : (call s bus).Returned
      · rw [deliver_cons_of_returned hreturned]
        exact List.cons_prefix_cons.2 ⟨rfl, ih _⟩
      · rw [deliver_cons_of_not_returned hreturned]
        exact List.cons_prefix_cons.2 ⟨rfl, List.nil_prefix⟩

theorem deliver_of_returned {subscribers : List (Subscription Event Topic)}
    (h : ∀ run ∈ runs call subscribers bus, run.Returned) :
    (deliver call event subscribers bus).called = subscribers ∧
      (deliver call event subscribers bus).ending = .completed ∧
      (deliver call event subscribers bus).log =
        (List.zipWith (entries event) subscribers (runs call subscribers bus)).flatten := by
  induction subscribers generalizing bus with
  | nil => exact ⟨rfl, rfl, rfl⟩
  | cons s rest ih =>
      rw [runs, List.forall_mem_cons] at h
      obtain ⟨hcalled, hending, hlog⟩ := ih h.2
      rw [deliver_cons_of_returned h.1]
      refine ⟨congrArg (s :: ·) hcalled, hending, ?_⟩
      rw [runs, List.zipWith_cons_cons, List.flatten_cons, hlog]

/-- Whatever calls do, an emission calls the subscribers that it found, by ascending identifiers. If all of them
return none is left out, and no failure reaches who emits. -/
theorem emitThrough_calls [DecidableEq Topic] [Topical Event Topic] (h : Reaches .empty bus)
    (call : Call Event Topic) (event : Event) :
    (bus.subscribersOf (topicOf event)).Pairwise (fun a b => a.id < b.id) ∧
      (∀ s, s ∈ bus.subscribersOf (topicOf event) ↔ s ∈ bus.subscriptions ∧ s.topic = topicOf event) ∧
      (bus.emitThrough call event).called <+: bus.subscribersOf (topicOf event) ∧
      ((∀ run ∈ runs call (bus.subscribersOf (topicOf event)) bus, run.Returned) →
        (bus.emitThrough call event).called = bus.subscribersOf (topicOf event) ∧
          (bus.emitThrough call event).ending = .completed ∧
          (bus.emitThrough call event).log = (List.zipWith (entries event) (bus.subscribersOf (topicOf event))
            (runs call (bus.subscribersOf (topicOf event)) bus)).flatten) :=
  ⟨(h.isOrdered isOrdered_empty).subscribersOf (topicOf event), fun _ => mem_subscribersOf,
    called_prefix call event _ bus, deliver_of_returned⟩

/-- The second subscriber to the topic was added from within an earlier emission. The first now removes itself, emits
to the topic again and fails, and in that inner emission the second empties the bus: it is called all the same. -/
theorem emitThrough_calls_of_reentrant_handlers :
    let second : Handler BranchEvent BranchEvent.Topic := .script "second" [.clear]
    let first := .script "first" [.unsubscribe .created 0, .emit (.created "b" "c2"), .fail]
    let start := ((empty : BranchBus).subscribe .created first).2
    let added := (start.subscribe .deleted (.script "adds" [.subscribe .created second])).2
    let bus := (emitWithin 1 (.deleted "x" "c0" false) added).bus
    let emission := bus.emitThrough (fun s bus => runHandler (emitWithin 1) bus s.handler) (.created "a" "c1")
    Reaches .empty bus ∧ emission.called.map Subscription.id = [0, 2] ∧ emission.ending = .completed ∧
      emission.log.map (fun d => d.subscription.id) = [0, 2, 2] ∧ emission.bus.subscriptions.length = 0 := by
  intro second first start added bus emission
  have hreaches : Reaches .empty bus :=
    Reaches.trans (.subscribe .deleted _ (.subscribe .created first (.refl _)))
      (reaches_emitWithin 1 (.deleted "x" "c0" false) added)
  obtain ⟨-, -, -, hcalls⟩ := emitThrough_calls hreaches
    (fun s bus => runHandler (emitWithin 1) bus s.handler) (.created "a" "c1")
  obtain ⟨hcalled, hending, hlog⟩ := hcalls (by decide)
  refine ⟨hreaches, ?_, hending, ?_, rfl⟩
  · rw [show emission.called = _ from hcalled]
    rfl
  · rw [show emission.log = _ from hlog]
    rfl

end VersionControl.EventBus
