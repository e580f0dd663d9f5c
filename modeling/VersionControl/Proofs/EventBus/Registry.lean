import Mathlib.Data.List.Nodup
import VersionControl.EventBus.Basic

/-!
# Subscriptions over time

Which states of a bus calls lead to, those that handlers make during an emission included. In all of them the
subscriptions stand in the order in which they were made, each with an identifier of its own.
-/

namespace VersionControl.EventBus

variable {Event Topic : Type} {bus after : EventBus Event Topic} {call : Call Event Topic} {topic : Topic}

section Calls

variable [DecidableEq Topic] [Topical Event Topic]

/-- Calls lead from one state of a bus to another. What a handler does to the bus it does by such calls too, and it
may emit while it is called. -/
inductive Reaches : EventBus Event Topic → EventBus Event Topic → Prop
  | refl (bus : EventBus Event Topic) : Reaches bus bus
  | subscribe {bus after : EventBus Event Topic} (topic : Topic) (handler : Handler Event Topic) :
      Reaches bus after → Reaches bus (after.subscribe topic handler).2
  | unsubscribe {bus after : EventBus Event Topic} (topic : Topic) (id : Nat) :
      Reaches bus after → Reaches bus (after.unsubscribe topic id)
  | clear {bus after : EventBus Event Topic} : Reaches bus after → Reaches bus after.clear
  | emit {bus after : EventBus Event Topic} {call : Call Event Topic} (event : Event) :
      Reaches bus after → (∀ s state, Reaches state (call s state).bus) →
      Reaches bus (after.emitThrough call event).bus

theorem Reaches.trans {mid : EventBus Event Topic} (h : Reaches bus mid) (hafter : Reaches mid after) :
    Reaches bus after := by
  -- The calls that handlers make start in states of their own, so only the outer calls are appended.
  induction hafter with
  | refl => exact h
  | subscribe topic handler _ ih => exact .subscribe topic handler (ih h)
  | unsubscribe topic id _ ih => exact .unsubscribe topic id (ih h)
  | clear _ ih => exact .clear (ih h)
  | emit event _ hcall ih => exact .emit event (ih h) hcall

/-! ## Handlers -/

section Handlers

variable {emit : Event → EventBus Event Topic → Emission Event Topic}

theorem reaches_runCommand (hemit : ∀ event bus, Reaches bus (emit event bus).bus) (bus : EventBus Event Topic)
    (command : Command Event Topic) : Reaches bus (runCommand emit bus command).bus := by
  cases command with
  | fail | abort => exact .refl bus
  | subscribe topic handler => exact .subscribe topic handler (.refl bus)
  | unsubscribe topic id => exact .unsubscribe topic id (.refl bus)
  | emit event => exact hemit event bus
  | clear => exact .clear (.refl bus)

theorem reaches_runCommands (hemit : ∀ event bus, Reaches bus (emit event bus).bus)
    (commands : List (Command Event Topic)) (bus : EventBus Event Topic) :
    Reaches bus (runCommands emit commands bus).bus := by
  induction commands generalizing bus with
  | nil => exact .refl bus
  | cons command rest ih =>
      have hfirst := reaches_runCommand hemit bus command
      rw [runCommands]
      split
      case isTrue => exact hfirst.trans (ih _)
      case isFalse => exact hfirst

theorem reaches_runHandler (hemit : ∀ event bus, Reaches bus (emit event bus).bus) (bus : EventBus Event Topic)
    (handler : Handler Event Topic) : Reaches bus (runHandler emit bus handler).bus := by
  cases handler with
  | missing | observer => exact .refl bus
  | script tag commands => exact reaches_runCommands hemit commands bus

end Handlers

/-- However deep the emissions of handlers go, they do nothing that calls in turn could not do. -/
theorem reaches_emitWithin (depth : Nat) (event : Event) (bus : EventBus Event Topic) :
    Reaches bus (emitWithin depth event bus).bus := by
  induction depth generalizing event bus with
  | zero => exact .refl bus
  | succ depth ih => exact .emit event (.refl bus) fun s state => reaches_runHandler ih state s.handler

end Calls

/-! ## The order of subscriptions -/

/-- A delivery does to the bus only what its calls do. -/
theorem deliver_invariant {P : EventBus Event Topic → Prop} (hcall : ∀ s state, P state → P (call s state).bus)
    (event : Event) (subscribers : List (Subscription Event Topic)) (hbus : P bus) :
    P (deliver call event subscribers bus).bus := by
  induction subscribers generalizing bus with
  | nil => exact hbus
  | cons s rest ih =>
      have hafter : P (call s bus).bus := hcall s bus hbus
      rw [deliver]
      split
      · exact ih hafter
      · exact ih hafter
      · exact hafter

/-- Subscriptions stand in ascending order of their identifiers, and the next identifier is above all of them. -/
structure IsOrdered (bus : EventBus Event Topic) : Prop where
  ascending : bus.subscriptions.Pairwise (fun a b => a.id < b.id)
  below : ∀ s ∈ bus.subscriptions, s.id < bus.nextId

theorem isOrdered_empty : IsOrdered (.empty : EventBus Event Topic) := ⟨.nil, fun _ h => by cases h⟩

theorem IsOrdered.subscribe (h : IsOrdered bus) (topic : Topic) (handler : Handler Event Topic) :
    IsOrdered (bus.subscribe topic handler).2 where
  ascending := by
    refine List.pairwise_append.2 ⟨h.ascending, List.pairwise_singleton _ _, fun s hs next hnext => ?_⟩
    rw [List.mem_singleton.1 hnext]
    exact h.below s hs
  below s hs := by
    rcases List.mem_append.1 hs with hs | hs
    · exact Nat.lt_succ_of_lt (h.below s hs)
    · rw [List.mem_singleton.1 hs]
      exact Nat.lt_succ_self bus.nextId

theorem IsOrdered.unsubscribe [DecidableEq Topic] (h : IsOrdered bus) (topic : Topic) (id : Nat) :
    IsOrdered (bus.unsubscribe topic id) where
  ascending := h.ascending.filter _
  below s hs := h.below s (List.mem_filter.1 hs).1

theorem IsOrdered.clear (bus : EventBus Event Topic) : IsOrdered bus.clear := ⟨.nil, fun _ h => by cases h⟩

/-- Emissions are no case of their own: they keep what the calls of their handlers keep. -/
theorem Reaches.isOrdered [DecidableEq Topic] [Topical Event Topic] (h : Reaches bus after) (hbus : IsOrdered bus) :
    IsOrdered after := by
  induction h with
  | refl => exact hbus
  | subscribe topic handler _ ih => exact (ih hbus).subscribe topic handler
  | unsubscribe topic id _ ih => exact (ih hbus).unsubscribe topic id
  | clear => exact .clear _
  | emit event _ _ ih ihcall => exact deliver_invariant ihcall event _ (ih hbus)

theorem IsOrdered.subscribersOf [DecidableEq Topic] (h : IsOrdered bus) (topic : Topic) :
    (bus.subscribersOf topic).Pairwise (fun a b => a.id < b.id) :=
  h.ascending.filter _

/-- Where identifiers ascend, each stands for one subscription. -/
theorem eq_of_ascending {subscriptions : List (Subscription Event Topic)} {s other : Subscription Event Topic}
    (h : subscriptions.Pairwise (fun a b => a.id < b.id)) (hs : s ∈ subscriptions) (hother : other ∈ subscriptions)
    (hid : s.id = other.id) : s = other :=
  List.inj_on_of_nodup_map (List.pairwise_map.2 (h.imp Nat.ne_of_lt)) hs hother hid

theorem mem_unsubscribe [DecidableEq Topic] {s : Subscription Event Topic} {id : Nat} :
    s ∈ (bus.unsubscribe topic id).subscriptions ↔ s ∈ bus.subscriptions ∧ ¬(s.topic = topic ∧ s.id = id) := by
  simp [EventBus.unsubscribe, -not_and, not_and_or]

theorem mem_subscribersOf [DecidableEq Topic] {s : Subscription Event Topic} :
    s ∈ bus.subscribersOf topic ↔ s ∈ bus.subscriptions ∧ s.topic = topic := by
  simp [EventBus.subscribersOf]

end VersionControl.EventBus
