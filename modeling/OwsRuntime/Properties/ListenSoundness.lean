import OwsRuntime.Engine.Hearing
import OwsRuntime.Engine.Runs

/-! What a listen task has received when it returns: the events that it declares, unless
its subscription closes, its `until` expression holds too soon, or its `until` strategy
takes an event before the strategy itself does. -/
namespace OwsRuntime

open Async Handler

/-- The events among the replies of a subscription. -/
def received (replies : List (Option EventMessage)) : List EventMessage := replies.filterMap id

@[simp] theorem received_map_some (events : List EventMessage) :
    received (events.map some) = events := by
  simp [received, List.filterMap_map]

namespace Listening

variable (l : Listening)

/-- An event that some filter takes on its own. Without filters every event counts. -/
def Counts (event : EventMessage) : Prop :=
  l.filters = [] ∨ ∃ f ∈ l.filters, (l.takes f event []).isSome = true

/-- What the task has consumed when it returns is what its strategies ask for. -/
structure Sound (replies : List (Option EventMessage)) (consumed : List EventMessage) : Prop where
  open_ : none ∉ replies
  ordered : consumed.Sublist (received replies)
  first : l.need = .one → l.hasUntil = false → ∃ before event,
    received replies = before ++ [event] ∧ consumed = [event] ∧ l.Counts event ∧
      ∀ earlier ∈ before, ¬ l.Counts earlier
  matched : l.need = .one → ∃ event ∈ consumed, l.MatchedBy (received replies) event
  every : ∀ count, l.need = .all count → ∀ i < l.filters.length,
    ∃ event ∈ consumed, l.SatisfiedBy (received replies) i event
  expression : l.untilExpression.isSome → l.stops consumed = .ok true
  strategy : ∀ i < l.untilFilters.length, ∃ event ∈ consumed, l.UntilBy (received replies) i event

/-- No event advances the `until` strategy before one has counted for a strategy that
needs one. -/
def Served (events : List EventMessage) : Prop :=
  ∀ before event after s, events = before ++ event :: after → l.Heard before s →
    l.need = .one → l.UntilChooses s event → ∃ earlier, l.MatchedBy (before ++ [event]) earlier

/-- The subscription stays open, the `until` expression holds of the events consumed only
when the task is done, and no event advances the `until` strategy before one has counted. -/
structure Regular (replies : List (Option EventMessage)) : Prop where
  open_ : none ∉ replies
  lasting : ∀ before event after s t, received replies = before ++ event :: after →
    l.Heard before s → l.next s event = .ok t → l.stops t.consumed = .ok true →
      l.complete t = true
  served : l.Served (received replies)

variable {l} {events : List EventMessage} {s : GatherState}

/-- Without `until` filters, a strategy that needs one event groups nothing. -/
theorem Heard.group_nil (heard : l.Heard events s) (hNeed : l.need = .one)
    (hUntil : l.untilFilters = []) : s.group = [] := by
  induction heard with
  | start => rfl
  | @more events s t event heard listening hNext ih =>
      obtain ⟨stop, _, rfl⟩ := next_cases hNext
      have hNone : s.untilFilters = [] := by
        rw [← List.map_eq_nil_iff, heard.kept.until_.same, hUntil]
      show (l.sort s event).group = []
      rw [sort_group, hNone, mark, (l.accept_of_one s event hNeed).2]
      exact ih

theorem not_untilChooses (heard : l.Heard events s) (hUntil : l.untilFilters = [])
    (event : EventMessage) : ¬ l.UntilChooses s event := by
  rintro ⟨i, f, hEntry, _⟩
  have hNone : s.untilFilters = [] := by
    rw [← List.map_eq_nil_iff, heard.kept.until_.same, hUntil]
  simp [hNone] at hEntry

/-- An event counts for the strategy when a filter takes it on its own. -/
theorem matchesOne_iff_counts (heard : l.Heard events s) (hNeed : l.need = .one)
    (hUntil : l.untilFilters = []) (event : EventMessage) :
    l.matchesOne s event = true ↔ l.Counts event := by
  rw [matchesOne, heard.group_nil hNeed hUntil, heard.kept.single hNeed, Counts, Bool.or_eq_true,
    List.isEmpty_iff, List.any_map]
  simp

theorem wanted_of_matched (hNeed : l.need = .one) {event : EventMessage}
    (hMatched : l.MatchedBy events event) : l.Wanted events event := by
  obtain ⟨before, after, s, hSplit, heard, hMatches⟩ := hMatched
  refine ⟨before, after, s, hSplit, heard, Or.inl ?_⟩
  rw [Chooses, hNeed]
  exact hMatches

theorem wanted_of_satisfied {count : Nat} (hNeed : l.need = .all count) {i : Nat}
    {event : EventMessage} (hSatisfied : l.SatisfiedBy events i event) : l.Wanted events event := by
  obtain ⟨before, after, s, hSplit, heard, hTakes⟩ := hSatisfied
  refine ⟨before, after, s, hSplit, heard, Or.inl ?_⟩
  rw [Chooses, hNeed]
  exact ⟨i, hTakes⟩

theorem wanted_of_until {i : Nat} {event : EventMessage} (hUntil : l.UntilBy events i event) :
    l.Wanted events event := by
  obtain ⟨before, after, s, hSplit, heard, hTakes⟩ := hUntil
  exact ⟨before, after, s, hSplit, heard, Or.inr ⟨i, hTakes⟩⟩

theorem untilFilters_of_expression (hSource : l.untilExpression.isSome) : l.untilFilters = [] := by
  rw [untilExpression] at hSource
  rw [untilFilters]
  cases hUntil : l.listen.until_ with
  | none => rfl
  | some until_ =>
      cases until_ with
      | expression source => rfl
      | strategy filters => simp [hUntil] at hSource

/-- Without `until` filters, the flag stays as it is. -/
theorem untilFlag_of_nil (heard : l.Heard events s) (hUntil : l.untilFilters = [])
    (event : EventMessage) : l.untilFlag s event = s.untilSatisfied := by
  have hNone : s.untilFilters = [] := by
    rw [← List.map_eq_nil_iff, heard.kept.until_.same, hUntil]
  simp [untilFlag, hNone, mark]

/-- An expression that holds only when the task is done holds then. -/
theorem stops_of_untilSatisfied {replies : List (Option EventMessage)} (regular : l.Regular replies)
    (heard : l.Heard events s) {after : List EventMessage}
    (hReceived : received replies = events ++ after) (hSource : l.untilExpression.isSome)
    (hFlag : s.untilSatisfied = true) : l.stops s.consumed = .ok true ∧ l.complete s = true := by
  induction heard generalizing after with
  | start => cases hFlag
  | @more events s t event heard listening hNext ih =>
      rw [List.append_assoc, List.singleton_append] at hReceived
      obtain ⟨stop, hStop, rfl⟩ := next_cases hNext
      simp only [Bool.or_eq_true, untilFlag_of_nil heard (untilFilters_of_expression hSource)] at hFlag
      rcases hFlag with hBefore | rfl
      · -- the task would have returned before
        rw [(ih hReceived hBefore).2] at listening
        cases listening
      · exact ⟨hStop, regular.lasting events event after s _ hReceived heard hNext hStop⟩

/-- A task with an `until` condition that is done has received an event. -/
theorem ne_nil_of_untilSatisfied (heard : l.Heard events s) (hFlag : s.untilSatisfied = true) :
    events ≠ [] := by
  rintro rfl
  cases heard.unique .start
  cases hFlag

theorem hasUntil_eq_false (hUntil : l.hasUntil = false) :
    l.untilExpression = none ∧ l.untilFilters = [] := by
  rw [hasUntil, Bool.or_eq_false_iff] at hUntil
  exact ⟨by simpa using hUntil.1, by simpa using hUntil.2⟩

theorem complete_iff_of_one (hNeed : l.need = .one) : l.complete s = true ↔
    (l.hasUntil = true ∧ s.filters = [] ∨ s.consumed ≠ []) ∧
      (l.hasUntil = true → s.untilSatisfied = true) := by
  rw [complete, GatherState.complete.eq_def, hNeed]
  cases l.hasUntil <;> simp

theorem complete_iff_of_all {count : Nat} (hNeed : l.need = .all count) : l.complete s = true ↔
    (count == 0 || GatherState.satisfied s.filters) = true ∧
      (l.hasUntil = true → s.untilSatisfied = true) := by
  rw [complete, GatherState.complete.eq_def, hNeed]
  cases l.hasUntil <;> simp

theorem untilSatisfied_of_complete (hComplete : l.complete s = true) (hUntil : l.hasUntil = true) :
    s.untilSatisfied = true := by
  cases hNeed : l.need with
  | one => exact ((complete_iff_of_one hNeed).mp hComplete).2 hUntil
  | all count => exact ((complete_iff_of_all hNeed).mp hComplete).2 hUntil

/-- A listen task that needs one event is done only when some event has counted for it: one that a
filter has matched, or any event where there is no filter. -/
theorem exists_matched (served : l.Served events) (heard : l.Heard events s) (hNeed : l.need = .one)
    (hComplete : l.complete s = true) : ∃ event ∈ s.consumed, l.MatchedBy events event := by
  suffices hMatched : ∃ event, l.MatchedBy events event by
    obtain ⟨event, hEvent⟩ := hMatched
    exact ⟨event, (heard.kept.consumed_iff event).mpr (wanted_of_matched hNeed hEvent), hEvent⟩
  obtain ⟨hBase, hFlag⟩ := (complete_iff_of_one hNeed).mp hComplete
  rcases hBase with ⟨hUntil, hFilters⟩ | hConsumed
  · rcases heard.last_cases with ⟨hNone, _⟩ | ⟨before, event, t, rfl, hBefore, _, _⟩
    · exact absurd hNone (ne_nil_of_untilSatisfied heard (hFlag hUntil))
    · refine ⟨event, before, [], t, rfl, hBefore, ?_⟩
      have hSame : t.filters = s.filters := by
        rw [heard.kept.single hNeed, hBefore.kept.single hNeed]
      show l.matchesOne t event = true
      rw [matchesOne, hSame, hFilters]
      rfl
  · obtain ⟨event, hMem⟩ := List.exists_mem_of_ne_nil _ hConsumed
    obtain ⟨before, after, t, hSplit, hBefore, hChooses⟩ := (heard.kept.consumed_iff event).mp hMem
    rcases hChooses with hChooses | hUntil
    · rw [Chooses, hNeed] at hChooses
      exact ⟨event, before, after, t, hSplit, hBefore, hChooses⟩
    · obtain ⟨earlier, hMatched⟩ :=
        served before event after t hSplit hBefore hNeed hUntil
      refine ⟨earlier, ?_⟩
      have hMore := hMatched.append after
      rw [List.append_assoc, List.singleton_append, ← hSplit] at hMore
      exact hMore

/-- A task that needs one event and has no `until` consumes the first that counts. -/
theorem exists_first (heard : l.Heard events s) (hNeed : l.need = .one) (hUntil : l.hasUntil = false)
    (hComplete : l.complete s = true) : ∃ before event, events = before ++ [event] ∧
      s.consumed = [event] ∧ l.Counts event ∧ ∀ earlier ∈ before, ¬ l.Counts earlier := by
  obtain ⟨_, hNoFilters⟩ := hasUntil_eq_false hUntil
  have hConsumed : s.consumed ≠ [] := by
    have hBase := ((complete_iff_of_one hNeed).mp hComplete).1
    simpa [hUntil] using hBase
  rcases heard.last_cases with ⟨_, rfl⟩ | ⟨before, event, t, rfl, hBefore, hListening, hNext⟩
  · exact absurd rfl hConsumed
  · have hEmpty : t.consumed = [] := by
      by_contra hSome
      have hDone := (complete_iff_of_one hNeed).mpr
        ⟨Or.inr hSome, fun h => absurd h (by simp [hUntil])⟩
      rw [hListening] at hDone
      cases hDone
    obtain ⟨stop, _, rfl⟩ := next_cases hNext
    have hNot := not_untilChooses hBefore hNoFilters event
    have hChooses : l.Chooses t event := by
      by_contra hNone
      apply hConsumed
      show (l.sort t event).consumed = []
      rw [sort_consumed_of_not hNone hNot, hEmpty]
    refine ⟨before, event, rfl, ?_, ?_, ?_⟩
    · show (l.sort t event).consumed = [event]
      rw [sort_consumed_of_chooses (Or.inl hChooses), hEmpty]
      rfl
    · rw [Chooses, hNeed] at hChooses
      exact (matchesOne_iff_counts hBefore hNeed hNoFilters event).mp hChooses
    · intro earlier hMem hCounts
      obtain ⟨first, rest, rfl⟩ := List.append_of_mem hMem
      obtain ⟨u, hFirst, _⟩ := hBefore.before
      have hMatched : l.MatchedBy (first ++ earlier :: rest) earlier :=
        ⟨first, rest, u, rfl, hFirst, (matchesOne_iff_counts hFirst hNeed hNoFilters earlier).mpr hCounts⟩
      have hWanted := (hBefore.kept.consumed_iff earlier).mpr (wanted_of_matched hNeed hMatched)
      rw [hEmpty] at hWanted
      cases hWanted

theorem hasUntil_of_filters {i : Nat} (hi : i < l.untilFilters.length) :
    l.hasUntil = true ∧ l.untilExpression = none := by
  constructor
  · rw [hasUntil]
    cases hFilters : l.untilFilters with
    | nil => simp [hFilters] at hi
    | cons first rest => simp
  · cases hSource : l.untilExpression with
    | none => rfl
    | some source =>
        have hNone : l.untilFilters = [] := untilFilters_of_expression (by simp [hSource])
        simp [hNone] at hi

/-- What a task that is done with its events has consumed is what it was to wait for, in the order
in which it came. -/
theorem Heard.sound {replies : List (Option EventMessage)} (regular : l.Regular replies)
    (hReceived : received replies = events) (heard : l.Heard events s)
    (hComplete : l.complete s = true) : l.Sound replies s.consumed where
  open_ := regular.open_
  ordered := hReceived ▸ heard.kept.ordered
  first := by
    intro hNeed hUntil
    rw [hReceived]
    exact exists_first heard hNeed hUntil hComplete
  matched := by
    intro hNeed
    rw [hReceived]
    exact exists_matched (hReceived ▸ regular.served) heard hNeed hComplete
  every := by
    intro count hNeed i hi
    rw [hReceived]
    obtain ⟨event, hEvent⟩ := (heard.kept.satisfied_iff hNeed).mp
      ((complete_iff_of_all hNeed).mp hComplete).1 i hi
    exact ⟨event, (heard.kept.consumed_iff event).mpr (wanted_of_satisfied hNeed hEvent), hEvent⟩
  expression := by
    intro hSource
    have hUntil : l.hasUntil = true := by simp [hasUntil, hSource]
    exact (stops_of_untilSatisfied regular heard (hReceived.trans (List.append_nil _).symm) hSource
      (untilSatisfied_of_complete hComplete hUntil)).1
  strategy := by
    intro i hi
    rw [hReceived]
    obtain ⟨hUntil, hSource⟩ := hasUntil_of_filters hi
    obtain ⟨event, hEvent⟩ := ((heard.untilSatisfied_iff hSource).mp
      (untilSatisfied_of_complete hComplete hUntil)).2 i hi
    exact ⟨event, (heard.kept.consumed_iff event).mpr (wanted_of_until hEvent), hEvent⟩

/-- In every run whose subscription and whose `until` condition are regular, the events that
the loop returns are those which its strategies ask for. -/
theorem gather_sound {ctx : ExecContext} {fuel : Nat} {σ τ : EngineState}
    {choices : List engine.Choice} {consumed : List EventMessage}
    (hRun : engine.run (engine.advance (l.gather ctx fuel l.start).run σ) choices =
      some (.done (.ok consumed), τ))
    (regular : l.Regular (deliveries (engine.advance (l.gather ctx fuel l.start).run σ) choices)) :
    l.Sound (deliveries (engine.advance (l.gather ctx fuel l.start).run σ) choices) consumed := by
  have stands := gather_run hRun
  generalize deliveries (engine.advance (l.gather ctx fuel l.start).run σ) choices = replies at *
  cases stands with
  | returns heard complete => exact heard.sound regular (received_map_some _) complete
  | closed heard listening => exact absurd (by simp) regular.open_

end Listening

namespace Sample

def typeFilter (type : String) : EventFilterDef :=
  { with_ := [("type", .string type)], correlate := [] }

def eventOf (type : String) : EventMessage := (CloudEvent.new "1" "sample" type).toMessage

/-- A task that listens until a `stop` event comes. -/
def untilStop (to_ : ListenTo) : Listening :=
  { env := runtime, vars := []
    listen := { to_, read := none, until_ := some (.strategy [typeFilter "stop"]) } }

/-- The loop of a listen task of the sample workflow, which may take three events. -/
def listening (l : Listening) : Config engineSig (Except WorkflowError (List EventMessage)) :=
  engine.advance (l.gather (executionContext runtime (workflow [] []) "id" .null 0) 4 l.start).run
    (idle (workflow [] []) world)

/-- The choices of a run in which the subscription replies one time after the other. -/
def replying (replies : List (Option EventMessage)) : List engine.Choice :=
  replies.flatMap fun reply => [.env (.replies { oracle with event := some reply }), .turn .here]

end Sample

section Examples

open Sample Listening

/-- An event that is the only one has met the task at its start. -/
theorem met_single {l : Listening} {event latest : EventMessage} {P : GatherState → Prop}
    (met : l.Met [latest] event P) : event = latest ∧ P l.start := by
  have hMet : l.Met ([] ++ [latest]) event P := met
  rcases hMet.last_cases with hNone | ⟨rfl, s, heard, hP⟩
  · exact absurd hNone not_met_nil
  · cases heard.unique .start
    exact ⟨rfl, hP⟩

/-- A task that listens for any event until a stop event consumes the stop event, as it should. -/
theorem gather_sound_untilStop : ∃ τ,
    engine.run (listening (untilStop (.any []))) (replying [some (eventOf "stop")]) =
        some (.done (.ok [eventOf "stop"]), τ) ∧
      (untilStop (.any [])).Sound
        (deliveries (listening (untilStop (.any []))) (replying [some (eventOf "stop")]))
        [eventOf "stop"] := by
  obtain ⟨τ, hRun⟩ : ∃ τ, engine.run (listening (untilStop (.any [])))
      (replying [some (eventOf "stop")]) = some (.done (.ok [eventOf "stop"]), τ) := ⟨_, rfl⟩
  refine ⟨τ, hRun, gather_sound hRun ?_⟩
  show (untilStop (.any [])).Regular [some (eventOf "stop")]
  constructor
  · simp
  · intro before event after s t _ _ _ hStops
    cases hStops
  · intro before event after s hSplit heard hNeed _
    have hMatches : (untilStop (.any [])).matchesOne s event = true := by
      rw [matchesOne, heard.kept.single hNeed]
      rfl
    exact ⟨event, before, [], s, rfl, heard, hMatches⟩

/-- The stop event is all that this task consumes, although it listens for an order. -/
theorem untilStop_unsound : ∃ τ,
    engine.run (listening (untilStop (.one (typeFilter "order")))) (replying [some (eventOf "stop")]) =
        some (.done (.ok [eventOf "stop"]), τ) ∧
      ¬ (untilStop (.one (typeFilter "order"))).Sound
        (deliveries (listening (untilStop (.one (typeFilter "order"))))
          (replying [some (eventOf "stop")])) [eventOf "stop"] := by
  refine ⟨_, rfl, fun sound => ?_⟩
  obtain ⟨event, _, hMatched⟩ := sound.matched rfl
  obtain ⟨rfl, hMatches⟩ := met_single hMatched
  cases hMatches

end Examples

end OwsRuntime
