import VersionControl.Branch.Event
import VersionControl.Dict
import VersionControl.EventBus.Basic

/-!
# Components of the bus

The bus of the branch events, and ready-made subscribers to all topics: loggers, and metrics that count the
branch events they were called with. Components are attached to a bus under names.
-/

namespace VersionControl

open BranchEvent (Topic)

instance : Topical BranchEvent Topic := ⟨BranchEvent.topic⟩

abbrev BranchBus := EventBus BranchEvent Topic

abbrev Handler := EventBus.Handler BranchEvent Topic

abbrev Command := EventBus.Command BranchEvent Topic

abbrev Delivery := EventBus.Delivery BranchEvent Topic

abbrev Emission := EventBus.Emission BranchEvent Topic

/-- What was counted. As with identifiers, no run gets near the end of a counter of 64 bits. -/
structure Metrics where
  created : Nat := 0
  deleted : Nat := 0
  forced : Nat := 0
  renamed : Nat := 0
  checkouts : Nat := 0
  deriving DecidableEq, Repr

namespace Metrics

def count (m : Metrics) : BranchEvent → Metrics
  | .created .. => { m with created := m.created + 1 }
  | .deleted _ _ forced =>
    { m with deleted := m.deleted + 1, forced := m.forced + if forced then 1 else 0 }
  | .renamed .. => { m with renamed := m.renamed + 1 }
  | .checkedOut .. => { m with checkouts := m.checkouts + 1 }

end Metrics

/-- The subscriptions of a component: under which topics, and by which identifiers. -/
abbrev Attachment (Topic : Type) := List (Topic × Nat)

namespace Attachment

variable {Event Topic : Type}

def attachTo (bus : EventBus Event Topic) : List Topic → Attachment Topic × EventBus Event Topic
  | [] => ([], bus)
  | topic :: rest =>
    let (id, bus) := bus.subscribe topic .observer
    let (others, bus) := attachTo bus rest
    ((topic, id) :: others, bus)

def attach (bus : BranchBus) : Attachment BranchEvent.Topic × BranchBus := attachTo bus BranchEvent.Topic.all

def detach [DecidableEq Topic] (attachment : Attachment Topic) (bus : EventBus Event Topic) :
    EventBus Event Topic :=
  attachment.foldl (fun bus (topic, id) => bus.unsubscribe topic id) bus

def isCalledBy (attachment : Attachment Topic) (delivery : EventBus.Delivery Event Topic) : Bool :=
  attachment.any fun (_, id) => id = delivery.subscription.id

end Attachment

structure MetricsComponent where
  attachment : Attachment Topic
  metrics : Metrics := {}

namespace MetricsComponent

def observe (log : List Delivery) (component : MetricsComponent) : MetricsComponent :=
  { component with
    metrics := (log.filter component.attachment.isCalledBy).foldl (fun m d => m.count d.event)
      component.metrics }

end MetricsComponent

structure WatchedBus where
  bus : BranchBus := {}
  metrics : Dict MetricsComponent := .empty
  loggers : Dict (Attachment Topic) := .empty

namespace WatchedBus

def detach? (attachment : Option (Attachment Topic)) (bus : BranchBus) : BranchBus :=
  match attachment with
  | some attachment => attachment.detach bus
  | none => bus

/-- Attaches fresh metrics under a name. Metrics that had the name before are detached afterwards. -/
def attachMetrics (name : String) (watched : WatchedBus) : WatchedBus :=
  let (attachment, bus) := Attachment.attach watched.bus
  { watched with
    bus := detach? ((watched.metrics.get? name).map (·.attachment)) bus
    metrics := watched.metrics.insert name { attachment } }

/-- Attaches a logger under a name. A logger that had the name before is detached afterwards. -/
def attachLogger (name : String) (watched : WatchedBus) : WatchedBus :=
  let (attachment, bus) := Attachment.attach watched.bus
  { watched with
    bus := detach? (watched.loggers.get? name) bus
    loggers := watched.loggers.insert name attachment }

def drop (name : String) (watched : WatchedBus) : WatchedBus :=
  { bus := detach? (watched.loggers.get? name)
      (detach? ((watched.metrics.get? name).map (·.attachment)) watched.bus)
    metrics := watched.metrics.erase name
    loggers := watched.loggers.erase name }

def metrics? (watched : WatchedBus) (name : String) : Option Metrics :=
  (watched.metrics.get? name).map (·.metrics)

/-- What the metrics make of the calls of an emission. -/
def hear (emission : Emission) (watched : WatchedBus) : WatchedBus :=
  { watched with
    bus := emission.bus
    metrics := watched.metrics.map (·.observe emission.log) }

def emit (event : BranchEvent) (watched : WatchedBus) : Emission × WatchedBus :=
  let emission := watched.bus.emit event
  (emission, watched.hear emission)

end WatchedBus

end VersionControl
