/-!
# The event bus

Subscribers by topic, and the delivery of events to them. A handler may itself act on the bus while an event is
delivered; who is called was settled when the event was emitted.
-/

namespace VersionControl

/-- Events of which each comes under one topic. -/
class Topical (Event : Type) (Topic : outParam Type) where
  topicOf : Event → Topic

export Topical (topicOf)

namespace EventBus

mutual
inductive Handler (Event Topic : Type)
  /-- No function at all: the call fails. -/
  | missing
  /-- Part of a component that watches the bus and never acts on it. -/
  | observer
  /-- Carries out commands in turn until one fails. -/
  | script (tag : String) (commands : List (Command Event Topic))

inductive Command (Event Topic : Type)
  | fail
  /-- Fails in a way that the bus does not catch. -/
  | abort
  | subscribe (topic : Topic) (handler : Handler Event Topic)
  | unsubscribe (topic : Topic) (id : Nat)
  | emit (event : Event)
  | clear
end

instance {Event Topic : Type} : Inhabited (Handler Event Topic) := ⟨.missing⟩

structure Subscription (Event Topic : Type) where
  id : Nat
  topic : Topic
  handler : Handler Event Topic

end EventBus

/-- The subscriptions by ascending identifier, and the identifier of the next one. A counter of 64 bits would come
round again only after more subscriptions than any run can make. -/
structure EventBus (Event Topic : Type) where
  nextId : Nat := 0
  subscriptions : List (EventBus.Subscription Event Topic) := []

namespace EventBus

structure Delivery (Event Topic : Type) where
  subscription : Subscription Event Topic
  event : Event

inductive Ending
  | completed
  | failed
  | aborted
  | tooDeep
  deriving DecidableEq, Repr

structure Run (Event Topic : Type) where
  bus : EventBus Event Topic
  /-- Every call that was made, in order, those of nested emissions included. -/
  log : List (Delivery Event Topic)
  ending : Ending

structure Emission (Event Topic : Type) extends Run Event Topic where
  /-- The subscriptions that this emission itself has called, in order. -/
  called : List (Subscription Event Topic)

/-- What the calls of subscribers do to the bus. -/
abbrev Call (Event Topic : Type) := Subscription Event Topic → EventBus Event Topic → Run Event Topic

variable {Event Topic : Type}

def empty : EventBus Event Topic := {}

def subscribe (bus : EventBus Event Topic) (topic : Topic) (handler : Handler Event Topic) :
    Nat × EventBus Event Topic :=
  (bus.nextId,
    { nextId := bus.nextId + 1
      subscriptions := bus.subscriptions ++ [{ id := bus.nextId, topic, handler }] })

def clear (bus : EventBus Event Topic) : EventBus Event Topic := { bus with subscriptions := [] }

variable [DecidableEq Topic]

def subscribersOf (bus : EventBus Event Topic) (topic : Topic) : List (Subscription Event Topic) :=
  bus.subscriptions.filter (·.topic = topic)

def subscriberCount (bus : EventBus Event Topic) (topic : Topic) : Nat := (bus.subscribersOf topic).length

/-- Removes a subscriber; an identifier that is gone or of another topic removes none. -/
def unsubscribe (bus : EventBus Event Topic) (topic : Topic) (id : Nat) : EventBus Event Topic :=
  { bus with subscriptions := bus.subscriptions.filter fun s => !(s.topic = topic && s.id = id) }

/-! ## Delivery -/

def runCommand (emit : Event → EventBus Event Topic → Emission Event Topic) (bus : EventBus Event Topic) :
    Command Event Topic → Run Event Topic
  | .fail => ⟨bus, [], .failed⟩
  | .abort => ⟨bus, [], .aborted⟩
  | .subscribe topic handler => ⟨(bus.subscribe topic handler).2, [], .completed⟩
  | .unsubscribe topic id => ⟨bus.unsubscribe topic id, [], .completed⟩
  | .emit event => (emit event bus).toRun
  | .clear => ⟨bus.clear, [], .completed⟩

def runCommands (emit : Event → EventBus Event Topic → Emission Event Topic) :
    List (Command Event Topic) → EventBus Event Topic → Run Event Topic
  | [], bus => ⟨bus, [], .completed⟩
  | command :: rest, bus =>
    let first := runCommand emit bus command
    if first.ending = .completed then
      let others := runCommands emit rest first.bus
      { others with log := first.log ++ others.log }
    else first

def runHandler (emit : Event → EventBus Event Topic → Emission Event Topic) (bus : EventBus Event Topic) :
    Handler Event Topic → Run Event Topic
  | .missing => ⟨bus, [], .failed⟩
  | .observer => ⟨bus, [], .completed⟩
  | .script _ commands => runCommands emit commands bus

/-- Calls the given subscribers in turn. A failure ends a call but not the delivery. -/
def deliver (call : Call Event Topic) (event : Event) :
    List (Subscription Event Topic) → EventBus Event Topic → Emission Event Topic
  | [], bus => { bus, log := [], ending := .completed, called := [] }
  | s :: rest, bus =>
    let run := call s bus
    let log := { subscription := s, event } :: run.log
    match run.ending with
    | .completed | .failed =>
      let others := deliver call event rest run.bus
      { others with log := log ++ others.log, called := s :: others.called }
    | ending => { bus := run.bus, log, ending, called := [s] }

variable [Topical Event Topic]

/-- Emits an event to those who are subscribed now, whatever their calls do to the bus. -/
def emitThrough (call : Call Event Topic) (event : Event) (bus : EventBus Event Topic) : Emission Event Topic :=
  deliver call event (bus.subscribersOf (topicOf event)) bus

/-- An emission through the handlers, with at most `depth` emissions inside each other. -/
def emitWithin : (depth : Nat) → Event → EventBus Event Topic → Emission Event Topic
  | 0, _, bus => { bus, log := [], ending := .tooDeep, called := [] }
  | depth + 1, event, bus => bus.emitThrough (fun s bus => runHandler (emitWithin depth) bus s.handler) event

def maxDepth : Nat := 1000

def emit (event : Event) (bus : EventBus Event Topic) : Emission Event Topic := emitWithin maxDepth event bus

end EventBus

end VersionControl
