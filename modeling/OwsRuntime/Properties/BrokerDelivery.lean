import OwsRuntime.Events.Broker

/-! Delivery by the broker in memory. Over every interleaving, what a subscription has
received and what is still in its channel are the events published after it which satisfy
its filter, and other subscriptions have no influence on it. -/
namespace OwsRuntime.InMemoryBroker

variable {trace more : List Label} {broker next : InMemoryBroker} {label : Label} {i : Nat}

section Traces

/-- Only a subscription can be the one that a trace is cut after. -/
theorem after_cons_of_filter?_none (h : label.filter? = none) :
    after i (label :: trace) = after i trace := by
  cases label <;> cases i <;> first | rfl | cases h

/-- The subscriptions of two traces come one after the other, -/
theorem filters_append : filters (trace ++ more) = filters trace ++ filters more :=
  List.filterMap_append

/-- and so do the events published, -/
theorem published_append : published (trace ++ more) = published trace ++ published more :=
  List.filterMap_append

/-- and those received. -/
theorem received_append : received i (trace ++ more) = received i trace ++ received i more :=
  List.filterMap_append

/-- A single label is one reception at most, -/
theorem received_singleton : received i [label] = (label.received? i).toList := by
  cases hLabel : label.received? i <;> simp [received, hLabel]

/-- and one publication at most. -/
theorem published_singleton : published [label] = label.published?.toList := by
  cases hLabel : label.published? <;> simp [published, hLabel]

/-- Once a subscription has been made, all that comes later comes after it. -/
theorem after_append_of_lt (h : i < (filters trace).length) :
    after i (trace ++ more) = after i trace ++ more := by
  induction trace generalizing i with
  | nil => cases h
  | cons label trace ih =>
      cases hFilter : label.filter? with
      | none =>
          have hRest : i < (filters trace).length := by
            rwa [filters, List.filterMap_cons_none hFilter] at h
          rw [List.cons_append, after_cons_of_filter?_none hFilter,
            after_cons_of_filter?_none hFilter, ih hRest]
      | some filter =>
          cases label with
          | subscribe found =>
              cases i with
              | zero => rfl
              | succ i =>
                  have hRest : i < (filters trace).length := by
                    rw [filters, List.filterMap_cons_some hFilter, List.length_cons] at h
                    exact Nat.lt_of_succ_lt_succ h
                  exact ih hRest
          | _ => cases hFilter

/-- Right after a subscription, nothing has come. -/
theorem after_subscribe {filter : EventMessage → Bool} :
    after (filters trace).length (trace ++ [.subscribe filter]) = [] := by
  induction trace with
  | nil => rfl
  | cons label trace ih =>
      cases hFilter : label.filter? with
      | none =>
          rw [filters, List.filterMap_cons_none hFilter, List.cons_append,
            after_cons_of_filter?_none hFilter]
          exact ih
      | some found =>
          cases label with
          | subscribe _ => exact ih
          | _ => cases hFilter

end Traces

/-- The events a subscription is due: those published after it which satisfy its filter. -/
def due (i : Nat) (filter : EventMessage → Bool) (trace : List Label) : List EventMessage :=
  (published (after i trace)).filter filter

/-- The event of a publish which has yet to serve a subscriber. -/
def awaited (broker : InMemoryBroker) (i : Nat) : List EventMessage :=
  match broker.publishing with
  | some publishing => if publishing.served ≤ i then [publishing.event] else []
  | none => []

/-- What has been received and what is to come are the events which are due. Unless the
receiver has been dropped, what is to come is in the channel or on its way there. -/
def Accounted (trace : List Label) (broker : InMemoryBroker) (i : Nat)
    (subscriber : InMemorySubscriber) : Prop :=
  ∃ coming, received i trace ++ coming = due i subscriber.filter trace ∧
    (subscriber.dropped = false →
      coming = subscriber.queue ++ (awaited broker i).filter subscriber.filter)

structure Delivering (trace : List Label) (broker : InMemoryBroker) : Prop where
  filters : broker.subscribers.map InMemorySubscriber.filter = filters trace
  unheard : ∀ i, broker.subscribers.length ≤ i → received i trace = []
  accounted : ∀ i subscriber, broker.subscribers[i]? = some subscriber →
    Accounted trace broker i subscriber

/-- There is a subscriber for every subscription, -/
theorem Delivering.length (delivering : Delivering trace broker) :
    (InMemoryBroker.filters trace).length = broker.subscribers.length := by
  rw [← delivering.filters, List.length_map]

/-- so one that is found has subscribed. -/
theorem Delivering.lt (delivering : Delivering trace broker) {subscriber : InMemorySubscriber}
    (hFound : broker.subscribers[i]? = some subscriber) : i < (InMemoryBroker.filters trace).length := by
  rw [delivering.length]
  exact (List.getElem?_eq_some_iff.mp hFound).1

/-- A step after a subscription adds what it publishes to what the subscription is due. -/
theorem due_append {filter : EventMessage → Bool} (h : i < (filters trace).length) :
    due i filter (trace ++ [label]) = due i filter trace ++ (published [label]).filter filter := by
  rw [due, after_append_of_lt h, published_append, List.filter_append, due]

/-- A new broker has nothing to deliver. -/
theorem Delivering.new : Delivering [] new :=
  ⟨rfl, fun _ _ => rfl, fun _ _ hFound => by cases hFound⟩

variable {subscribers : List InMemorySubscriber} {filter : EventMessage → Bool} {event : EventMessage}
  {served : Nat} {subscriber : InMemorySubscriber} {queue : List EventMessage}

/-- One step after another keeps the invariant. A new subscriber is due nothing yet. -/
theorem Delivering.subscribe (delivering : Delivering trace ⟨subscribers, none⟩) :
    Delivering (trace ++ [.subscribe filter]) ⟨subscribers ++ [⟨filter, [], false⟩], none⟩ := by
  have hLength : (InMemoryBroker.filters trace).length = subscribers.length := delivering.length
  refine ⟨?_, ?_, ?_⟩
  · rw [List.map_append, delivering.filters, filters_append]
    rfl
  · intro i hLe
    rw [List.length_append] at hLe
    rw [received_append, delivering.unheard i (Nat.le_of_add_right_le hLe)]
    rfl
  · intro i found hFound
    by_cases hOld : i < subscribers.length
    · rw [List.getElem?_append_left hOld] at hFound
      obtain ⟨coming, hDue, hComing⟩ := delivering.accounted i found hFound
      refine ⟨coming, ?_, hComing⟩
      rw [received_append, due_append (delivering.lt hFound), ← hDue]
      simp [received_singleton, published_singleton, Label.received?, Label.published?]
    · -- The new subscriber: nothing has been published after it.
      rw [List.getElem?_append_right (Nat.le_of_not_lt hOld)] at hFound
      have hHere : i = (InMemoryBroker.filters trace).length := by
        have hLt := (List.getElem?_eq_some_iff.mp hFound).1
        rw [List.length_singleton] at hLt
        omega
      have hNew : found = ⟨filter, [], false⟩ := by
        rw [hHere, hLength, Nat.sub_self] at hFound
        exact (Option.some.inj hFound).symm
      subst hHere hNew
      refine ⟨[], ?_, fun _ => rfl⟩
      rw [due, after_subscribe, received_append, delivering.unheard _ (Nat.le_of_eq hLength.symm)]
      rfl

/-- A publication is due to all subscribers, none of whom it has been offered to. -/
theorem Delivering.publish (delivering : Delivering trace ⟨subscribers, none⟩) :
    Delivering (trace ++ [.publish event]) ⟨subscribers, some ⟨event, 0⟩⟩ := by
  refine ⟨?_, ?_, ?_⟩
  · rw [delivering.filters, filters_append]
    simp [InMemoryBroker.filters, Label.filter?]
  · intro i hLe
    rw [received_append, delivering.unheard i hLe]
    rfl
  · intro i found hFound
    obtain ⟨coming, hDue, hComing⟩ := delivering.accounted i found hFound
    refine ⟨coming ++ [event].filter found.filter, ?_, ?_⟩
    · rw [received_append, due_append (delivering.lt hFound), ← hDue]
      simp [received_singleton, published_singleton, Label.received?, Label.published?]
    · intro hOpen
      rw [hComing hOpen]
      simp [awaited]

/-- An event offered to a subscriber is in its channel, unless its receiver is gone. -/
theorem offer_queue (hOpen : subscriber.dropped = false) :
    (subscriber.offer event).queue = subscriber.queue ++ [event].filter subscriber.filter := by
  by_cases hFilter : subscriber.filter event <;>
    simp [InMemorySubscriber.offer, hFilter, hOpen]

/-- An offer does not change the filter of a subscriber, -/
theorem offer_filter : (subscriber.offer event).filter = subscriber.filter := by
  unfold InMemorySubscriber.offer
  split <;> rfl

/-- and does not bring one back. -/
theorem offer_dropped : (subscriber.offer event).dropped = subscriber.dropped := by
  unfold InMemorySubscriber.offer
  split <;> rfl

/-- A step which publishes nothing, and which the subscription does not notice. -/
theorem Accounted.of_unnoticed (accounted : Accounted trace broker i subscriber)
    (hLt : i < (filters trace).length) (hReceived : label.received? i = none)
    (hPublished : label.published? = none) (hAwaited : awaited next i = awaited broker i) :
    Accounted (trace ++ [label]) next i subscriber := by
  obtain ⟨coming, hDue, hComing⟩ := accounted
  refine ⟨coming, ?_, ?_⟩
  · rw [received_append, due_append hLt, ← hDue]
    simp [received_singleton, published_singleton, hReceived, hPublished]
  · rw [hAwaited]
    exact hComing

/-- What a step that changes one subscriber keeps for the others: their queues and what is due to
them are as before, and only the one that has changed is to be looked at. -/
theorem Delivering.set (delivering : Delivering trace broker) {n : Nat} (changed : InMemorySubscriber)
    (hFound : broker.subscribers[n]? = some subscriber) (hFilter : changed.filter = subscriber.filter)
    (hLabel : label.filter? = none) (hPublished : label.published? = none)
    (hOthers : ∀ i, i ≠ n → label.received? i = none)
    (hNext : next.subscribers = broker.subscribers.set n changed)
    (hAwaited : ∀ i, i ≠ n → awaited next i = awaited broker i)
    (hHere : Accounted (trace ++ [label]) next n changed) : Delivering (trace ++ [label]) next := by
  have hLt : n < broker.subscribers.length := (List.getElem?_eq_some_iff.mp hFound).1
  refine ⟨?_, ?_, ?_⟩
  · rw [hNext, List.map_set, hFilter, filters_append, ← delivering.filters]
    have hSame : (broker.subscribers.map InMemorySubscriber.filter)[n]? = some subscriber.filter := by
      rw [List.getElem?_map, hFound]
      rfl
    obtain ⟨hIndex, hEq⟩ := List.getElem?_eq_some_iff.mp hSame
    rw [← hEq, List.set_getElem_self hIndex]
    simp [InMemoryBroker.filters, hLabel]
  · intro i hLe
    rw [hNext, List.length_set] at hLe
    rw [received_append, delivering.unheard i hLe]
    simp [received, hOthers i (by omega)]
  · intro i found hMem
    rw [hNext] at hMem
    by_cases hSame : n = i
    · subst hSame
      rw [List.getElem?_set_self hLt] at hMem
      rw [← Option.some.inj hMem]
      exact hHere
    · rw [List.getElem?_set_ne hSame] at hMem
      exact (delivering.accounted i found hMem).of_unnoticed (delivering.lt hMem)
        (hOthers i (Ne.symm hSame)) hPublished (hAwaited i (Ne.symm hSame))

/-- The event is offered to the next subscriber, who queues it or has no wish for it. -/
theorem Delivering.deliver (delivering : Delivering trace ⟨subscribers, some ⟨event, served⟩⟩)
    (hNext : subscribers[served]? = some subscriber) :
    Delivering (trace ++ [.deliver])
      ⟨subscribers.set served (subscriber.offer event), some ⟨event, served + 1⟩⟩ := by
  refine delivering.set (subscriber.offer event) hNext offer_filter rfl rfl (fun _ _ => rfl) rfl ?_ ?_
  · intro i hOther
    have hIff : served + 1 ≤ i ↔ served ≤ i := by omega
    simp only [awaited, hIff]
  · -- The event it has been offered is no longer awaited.
    obtain ⟨coming, hDue, hComing⟩ := delivering.accounted served subscriber hNext
    refine ⟨coming, ?_, ?_⟩
    · rw [received_append, offer_filter, due_append (delivering.lt hNext), ← hDue]
      simp [received_singleton, published_singleton, Label.received?, Label.published?]
    · rw [offer_dropped]
      intro hOpen
      rw [hComing hOpen, offer_queue hOpen, offer_filter]
      have hServed : ¬ served + 1 ≤ served := by omega
      simp [awaited, hServed]

/-- When all have been offered it, the publication is over. -/
theorem Delivering.release (delivering : Delivering trace ⟨subscribers, some ⟨event, served⟩⟩)
    (hAll : subscribers.length ≤ served) :
    Delivering (trace ++ [.release]) ⟨subscribers, none⟩ := by
  refine ⟨?_, ?_, ?_⟩
  · rw [delivering.filters, filters_append]
    simp [InMemoryBroker.filters, Label.filter?]
  · intro i hLe
    rw [received_append, delivering.unheard i hLe]
    rfl
  · intro i found hFound
    have hLt : i < subscribers.length := (List.getElem?_eq_some_iff.mp hFound).1
    refine (delivering.accounted i found hFound).of_unnoticed (delivering.lt hFound) rfl rfl ?_
    simp only [awaited, if_neg (show ¬ served ≤ i by omega)]

/-- A subscriber receives the first event of the queue. -/
theorem Delivering.recv (delivering : Delivering trace broker)
    (hFound : broker.subscribers[i]? = some ⟨filter, event :: queue, false⟩) :
    Delivering (trace ++ [.recv i event])
      { broker with subscribers := broker.subscribers.set i ⟨filter, queue, false⟩ } := by
  refine delivering.set ⟨filter, queue, false⟩ hFound rfl rfl rfl ?_ rfl (fun _ _ => rfl) ?_
  · intro j hOther
    exact if_neg (Ne.symm hOther)
  · obtain ⟨coming, hDue, hComing⟩ := delivering.accounted i _ hFound
    rw [hComing rfl] at hDue
    refine ⟨queue ++ (awaited broker i).filter filter, ?_, fun _ => rfl⟩
    rw [received_append, due_append (delivering.lt hFound), ← hDue]
    simp [received_singleton, published_singleton, Label.received?, Label.published?]

/-- One who has gone is due no more than what was received. -/
theorem Delivering.drop (delivering : Delivering trace broker)
    (hFound : broker.subscribers[i]? = some ⟨filter, queue, false⟩) :
    Delivering (trace ++ [.drop i])
      { broker with subscribers := broker.subscribers.set i ⟨filter, [], true⟩ } := by
  refine delivering.set ⟨filter, [], true⟩ hFound rfl rfl rfl (fun _ _ => rfl) rfl (fun _ _ => rfl) ?_
  obtain ⟨coming, hDue, -⟩ := delivering.accounted i _ hFound
  refine ⟨coming, ?_, fun hOpen => by cases hOpen⟩
  rw [received_append, due_append (delivering.lt hFound), ← hDue]
  simp [received_singleton, published_singleton, Label.received?, Label.published?]

/-- So every step of the broker keeps the invariant. There is a case for each label. -/
theorem Delivering.step (delivering : Delivering trace broker) (last : Step broker label next) :
    Delivering (trace ++ [label]) next := by
  cases last with
  | subscribe => exact delivering.subscribe
  | publish => exact delivering.publish
  | deliver hNext => exact delivering.deliver hNext
  | release hAll => exact delivering.release hAll
  | recv hFound => exact delivering.recv hFound
  | drop hFound => exact delivering.drop hFound

/-- It holds after every run. The induction is on the steps. -/
theorem Runs.delivering (runs : Runs trace broker) : Delivering trace broker := by
  induction runs with
  | new => exact Delivering.new
  | step _ last ih => exact ih.step last

/-- Two states of a broker between which a subscription sees no difference. -/
structure Agrees (i : Nat) (broker other : InMemoryBroker) : Prop where
  publishing : other.publishing = broker.publishing
  length : other.subscribers.length = broker.subscribers.length
  same : other.subscribers[i]? = broker.subscribers[i]?

variable {other : InMemoryBroker}

/-- Receiving from another subscription, or dropping it, makes no difference. -/
theorem Agrees.others (agrees : Agrees i broker other) (last : Step broker label next)
    (hOthers : label.others i = true) : Agrees i next other := by
  cases last with
  | recv hFound =>
      have hNe : _ ≠ i := bne_iff_ne.mp hOthers
      refine ⟨agrees.publishing, ?_, ?_⟩
      · rw [agrees.length, List.length_set]
      · rw [agrees.same, List.getElem?_set_ne hNe]
  | drop hFound =>
      have hNe : _ ≠ i := bne_iff_ne.mp hOthers
      refine ⟨agrees.publishing, ?_, ?_⟩
      · rw [agrees.length, List.length_set]
      · rw [agrees.same, List.getElem?_set_ne hNe]
  | subscribe => cases hOthers
  | publish => cases hOthers
  | deliver => cases hOthers
  | release => cases hOthers

/-- Two brokers that agree but for one subscriber can take the same steps, those of that subscriber
apart, and agree afterwards. -/
theorem Agrees.step (agrees : Agrees i broker other) (last : Step broker label next)
    (hOwn : label.others i = false) : ∃ next', Step other label next' ∧ Agrees i next next' := by
  obtain ⟨hPublishing, hLength, hSame⟩ := agrees
  obtain ⟨others, publishing⟩ := other
  dsimp only at hPublishing hLength hSame
  subst hPublishing
  cases last with
  | subscribe subscribers filter =>
      refine ⟨_, Step.subscribe others filter, rfl, ?_, ?_⟩
      · simp [hLength]
      · dsimp only at hLength hSame ⊢
        rw [List.getElem?_append, List.getElem?_append, hLength, hSame]
  | publish subscribers event => exact ⟨_, Step.publish others event, rfl, hLength, hSame⟩
  | @deliver subscribers event served subscriber hNext =>
      have hLt : served < others.length := by
        rw [hLength]
        exact (List.getElem?_eq_some_iff.mp hNext).1
      refine ⟨_, Step.deliver (List.getElem?_eq_getElem hLt), rfl, ?_, ?_⟩
      · simp [hLength]
      · by_cases hHere : served = i
        · -- The subscriber that is served is the one both states share.
          subst hHere
          have hEq : others[served] = subscriber := by
            have hBoth := hSame.trans hNext
            rw [List.getElem?_eq_getElem hLt] at hBoth
            exact Option.some.inj hBoth
          have hLt' : served < subscribers.length := (List.getElem?_eq_some_iff.mp hNext).1
          rw [List.getElem?_set_self hLt, List.getElem?_set_self hLt', hEq]
        · rw [List.getElem?_set_ne hHere, List.getElem?_set_ne hHere, hSame]
  | release hAll => exact ⟨_, Step.release (Nat.le_trans (Nat.le_of_eq hLength) hAll), rfl, hLength, hSame⟩
  | @recv _ j filter event queue hFound =>
      have hHere : j = i := by simpa [Label.others] using hOwn
      subst hHere
      have hLt : j < broker.subscribers.length := (List.getElem?_eq_some_iff.mp hFound).1
      refine ⟨_, Step.recv (hSame.trans hFound), rfl, ?_, ?_⟩
      · simp [hLength]
      · rw [List.getElem?_set_self (Nat.lt_of_lt_of_eq hLt hLength.symm), List.getElem?_set_self hLt]
  | @drop _ j filter queue hFound =>
      have hHere : j = i := by simpa [Label.others] using hOwn
      subst hHere
      have hLt : j < broker.subscribers.length := (List.getElem?_eq_some_iff.mp hFound).1
      refine ⟨_, Step.drop (hSame.trans hFound), rfl, ?_, ?_⟩
      · simp [hLength]
      · rw [List.getElem?_set_self (Nat.lt_of_lt_of_eq hLt hLength.symm), List.getElem?_set_self hLt]

/-- A run without the receives and the drops of the other subscriptions leads to a state in
which the subscription sees no difference. -/
theorem Runs.alone (runs : Runs trace broker) (i : Nat) :
    ∃ other, Runs (alone i trace) other ∧ Agrees i broker other := by
  induction runs with
  | new => exact ⟨_, Runs.new, rfl, rfl, rfl⟩
  | @step trace broker next label _ last ih =>
      obtain ⟨other, prior, agrees⟩ := ih
      cases hOthers : label.others i with
      | true =>
          have hAlone : InMemoryBroker.alone i (trace ++ [label]) = InMemoryBroker.alone i trace := by
            simp [InMemoryBroker.alone, hOthers]
          rw [hAlone]
          exact ⟨other, prior, agrees.others last hOthers⟩
      | false =>
          have hAlone : InMemoryBroker.alone i (trace ++ [label]) =
              InMemoryBroker.alone i trace ++ [label] := by
            simp [InMemoryBroker.alone, hOthers]
          obtain ⟨next', hStep, hAgrees⟩ := agrees.step last hOthers
          rw [hAlone]
          exact ⟨next', prior.step hStep, hAgrees⟩

/-- Delivery, over every run and for every subscription. What it has received is a prefix of
what it is due, the rest is in its channel once no publish is under way, and its subscriber is
the same when the other subscriptions neither receive nor are dropped. -/
theorem delivery (runs : Runs trace broker) {i : Nat} {filter : EventMessage → Bool}
    (hFilter : (filters trace)[i]? = some filter) :
    received i trace <+: due i filter trace ∧
      ∃ queue dropped, broker.subscribers[i]? = some ⟨filter, queue, dropped⟩ ∧
        (broker.publishing = none → dropped = false →
          received i trace ++ queue = due i filter trace) ∧
        ∃ other, Runs (alone i trace) other ∧
          other.subscribers[i]? = some ⟨filter, queue, dropped⟩ := by
  rw [← runs.delivering.filters, List.getElem?_map] at hFilter
  obtain ⟨⟨_, queue, dropped⟩, hFound, rfl⟩ := Option.map_eq_some_iff.mp hFilter
  obtain ⟨coming, hDue, hComing⟩ := runs.delivering.accounted i _ hFound
  obtain ⟨other, others, agrees⟩ := runs.alone i
  refine ⟨⟨coming, hDue⟩, queue, dropped, hFound, ?_, other, others, agrees.same.trans hFound⟩
  intro hIdle hOpen
  rw [← hDue, hComing hOpen]
  simp [awaited, hIdle]

def tick (id : String) : EventMessage :=
  CloudEvent.toMessage (.new id "clock" "tick")

def everyEvent : EventMessage → Bool := fun _ => true

/-- Two subscriptions, of which the first receives while the publish is still under way and
is then dropped. The second one receives both events. -/
def droppedTrace : List Label :=
  [.subscribe everyEvent, .subscribe everyEvent, .publish (tick "1"), .deliver, .recv 0 (tick "1"),
    .deliver, .release, .drop 0, .publish (tick "2"), .deliver, .deliver, .release,
    .recv 1 (tick "1"), .recv 1 (tick "2")]

/-- The trace in which a subscriber goes away is such a run. -/
theorem delivery_droppedTrace :
    received 1 droppedTrace = [tick "1", tick "2"] ∧
      received 1 droppedTrace <+: due 1 everyEvent droppedTrace := by
  have subscribed := (Runs.new.step (.subscribe _ everyEvent)).step (.subscribe _ everyEvent)
  have first := (((subscribed.step (.publish _ (tick "1"))).step (.deliver rfl)).step
    (.recv (i := 0) rfl)).step (.deliver rfl)
  have dropped := (first.step (.release (Nat.le_refl _))).step (.drop (i := 0) rfl)
  have second := (((dropped.step (.publish _ (tick "2"))).step (.deliver rfl)).step
    (.deliver rfl)).step (.release (Nat.le_refl _))
  have both := (second.step (.recv (i := 1) rfl)).step (.recv (i := 1) rfl)
  have runs : Runs droppedTrace _ := both
  exact ⟨by decide, (delivery runs (i := 1) rfl).1⟩

end OwsRuntime.InMemoryBroker
