import OwsRuntime.Core.Services

/-! The event broker in memory, as a step relation. A publish takes the lock of the broker
and offers its event to one subscriber after the other. Receiving from a subscription and
dropping it need no lock, and happen between any two of these steps. -/
namespace OwsRuntime

/-- A subscriber of the broker with its channel: the events sent and not yet received, and
whether the receiver has been dropped. -/
structure InMemorySubscriber where
  filter : EventMessage → Bool
  queue : List EventMessage
  dropped : Bool

/-- A send to a dropped receiver fails, and the failure is ignored. -/
def InMemorySubscriber.offer (subscriber : InMemorySubscriber) (event : EventMessage) :
    InMemorySubscriber :=
  if subscriber.filter event ∧ ¬ subscriber.dropped then
    { subscriber with queue := subscriber.queue ++ [event] }
  else subscriber

/-- A publish which holds the lock: its event, and how many subscribers it has served. -/
structure Publishing where
  event : EventMessage
  served : Nat

structure InMemoryBroker where
  subscribers : List InMemorySubscriber
  publishing : Option Publishing

namespace InMemoryBroker

def new : InMemoryBroker := ⟨[], none⟩

inductive Label where
  | subscribe (filter : EventMessage → Bool)
  | publish (event : EventMessage)
  | deliver
  | release
  | recv (i : Nat) (event : EventMessage)
  | drop (i : Nat)

/-- One step of the broker, when it can be taken. Subscribers are numbered in the order of
their subscription. -/
inductive Step : InMemoryBroker → Label → InMemoryBroker → Prop where
  | subscribe (subscribers : List InMemorySubscriber) (filter : EventMessage → Bool) :
      Step ⟨subscribers, none⟩ (.subscribe filter) ⟨subscribers ++ [⟨filter, [], false⟩], none⟩
  | publish (subscribers : List InMemorySubscriber) (event : EventMessage) :
      Step ⟨subscribers, none⟩ (.publish event) ⟨subscribers, some ⟨event, 0⟩⟩
  | deliver {subscribers : List InMemorySubscriber} {event : EventMessage} {served : Nat}
      {subscriber : InMemorySubscriber} (hNext : subscribers[served]? = some subscriber) :
      Step ⟨subscribers, some ⟨event, served⟩⟩ .deliver
        ⟨subscribers.set served (subscriber.offer event), some ⟨event, served + 1⟩⟩
  | release {subscribers : List InMemorySubscriber} {event : EventMessage} {served : Nat}
      (hAll : subscribers.length ≤ served) :
      Step ⟨subscribers, some ⟨event, served⟩⟩ .release ⟨subscribers, none⟩
  | recv {broker : InMemoryBroker} {i : Nat} {filter : EventMessage → Bool} {event : EventMessage}
      {queue : List EventMessage} (hFound : broker.subscribers[i]? = some ⟨filter, event :: queue, false⟩) :
      Step broker (.recv i event)
        { broker with subscribers := broker.subscribers.set i ⟨filter, queue, false⟩ }
  | drop {broker : InMemoryBroker} {i : Nat} {filter : EventMessage → Bool}
      {queue : List EventMessage} (hFound : broker.subscribers[i]? = some ⟨filter, queue, false⟩) :
      Step broker (.drop i) { broker with subscribers := broker.subscribers.set i ⟨filter, [], true⟩ }

/-- The runs of a broker, with the steps taken. -/
inductive Runs : List Label → InMemoryBroker → Prop where
  | new : Runs [] new
  | step {trace : List Label} {broker next : InMemoryBroker} {label : Label}
      (prior : Runs trace broker) (last : Step broker label next) : Runs (trace ++ [label]) next

def Label.filter? : Label → Option (EventMessage → Bool)
  | subscribe filter => some filter
  | _ => none

def Label.published? : Label → Option EventMessage
  | publish event => some event
  | _ => none

def Label.received? (i : Nat) : Label → Option EventMessage
  | recv j event => if j = i then some event else none
  | _ => none

/-- The filters of the subscriptions, in their order. -/
def filters (trace : List Label) : List (EventMessage → Bool) := trace.filterMap Label.filter?

/-- The events published, in the order in which the publishes have taken the lock. -/
def published (trace : List Label) : List EventMessage := trace.filterMap Label.published?

/-- The events received from a subscription. -/
def received (i : Nat) (trace : List Label) : List EventMessage := trace.filterMap (Label.received? i)

/-- The steps after a subscription. -/
def after : Nat → List Label → List Label
  | _, [] => []
  | 0, .subscribe _ :: trace => trace
  | i + 1, .subscribe _ :: trace => after i trace
  | i, _ :: trace => after i trace

/-- Whether a step is a receive from another subscription, or drops another one. -/
def Label.others (i : Nat) : Label → Bool
  | recv j _ => j != i
  | drop j => j != i
  | _ => false

/-- The steps without the receives and the drops of the other subscriptions. -/
def alone (i : Nat) (trace : List Label) : List Label := trace.filter fun label => !label.others i

end InMemoryBroker

end OwsRuntime
