import OwsRuntime.Engine.Sources
import OwsRuntime.Properties.ListenSoundness

/-! When a listen task with an `until` strategy returns. Its compilation keeps the filters
of the strategy and drops its kind, so that `any` waits for every filter, as `all` does. -/
namespace OwsRuntime

open Async Handler

namespace Listening

/-- The listen task that a definition is compiled to. -/
def compiled (env : RuntimeInner) (vars : Map) (listen : ListenDefinition) : Listening :=
  { env, vars, listen := compileListen listen }

variable (l : Listening)

/-- Some filter takes the event, after the strategy has gone through it. -/
def TakenByAny (filters : List CompiledListenFilter) (s : GatherState) (event : EventMessage) : Prop :=
  ∃ f ∈ filters, (l.takes f event (l.accept s event).1.group).isSome = true

/-- Whether the events received satisfy an `until` strategy. -/
def UntilHeard (strategy : ListenTo) (events : List EventMessage) : Prop :=
  match strategy with
  | .one filter => ∃ event, l.Met events event fun s => l.TakenByAny [buildFilter filter] s event
  | .any filters =>
      ∃ event, l.Met events event fun s => l.TakenByAny (filters.map buildFilter) s event
  | .all filters => ∀ i < filters.length, ∃ event, l.UntilBy events i event

/-- Whether the events received satisfy the strategy itself. -/
def BaseHeard (events : List EventMessage) : Prop :=
  match l.need with
  | .one => ∃ event, l.MatchedBy events event
  | .all _ => ∀ i < l.filters.length, ∃ event, l.SatisfiedBy events i event

/-- Whether the events received are what a task with an `until` strategy listens for. -/
def Due (strategy : ListenTo) (events : List EventMessage) : Prop :=
  l.BaseHeard events ∧ l.UntilHeard strategy events

/-- An `any` strategy has filters, and the first event that one of them takes is taken by
all of them. -/
def Together (strategy : ListenTo) (events : List EventMessage) : Prop :=
  match strategy with
  | .any filters => filters ≠ [] ∧ ∀ before event after s, events = before ++ event :: after →
      l.Heard before s → s.untilSatisfied = false → l.TakenByAny (filters.map buildFilter) s event →
        ∀ i < filters.length, l.TakesAt event s.untilFilters (l.accept s event).1.group i
  | _ => True

/-- The subscription stays open, no event advances the `until` strategy before one has
counted, and an `any` strategy makes no difference to `all`. -/
structure Keeps (strategy : ListenTo) (replies : List (Option EventMessage)) : Prop where
  open_ : none ∉ replies
  served : l.Served (received replies)
  together : l.Together strategy (received replies)

/-- Where a task with an `until` strategy may stand: it waits while the events are not yet
what it listens for, and returns as soon as they are. It fails when it is cancelled only. -/
def Stops (ctx : ExecContext) (fuel : Nat) (strategy : ListenTo) (replies : List (Option EventMessage))
    (d : Config engineSig (Except WorkflowError (List EventMessage))) : Prop :=
  (∃ epoch next τ, d = (.act (.receive epoch) next, τ) ∧ ¬ l.Due strategy (received replies)) ∨
    (∃ consumed τ, d = (.done (.ok consumed), τ) ∧ l.Due strategy (received replies) ∧
      ∀ before event after, received replies = before ++ event :: after → ¬ l.Due strategy before) ∨
    (∃ τ, d = (.done (.error ctx.cancelledError), τ)) ∨ fuel ≤ replies.length

variable {l} {events : List EventMessage} {s : GatherState}

theorem Served.before (served : l.Served events) {before after : List EventMessage}
    (hSplit : events = before ++ after) : l.Served before := by
  rintro first event rest t rfl
  apply served first event (rest ++ after) t
  simp [hSplit]

theorem Together.before {strategy : ListenTo} (together : l.Together strategy events)
    {before after : List EventMessage} (hSplit : events = before ++ after) :
    l.Together strategy before := by
  cases strategy with
  | any filters =>
      refine ⟨together.1, ?_⟩
      rintro first event rest t rfl
      apply together.2 first event (rest ++ after) t
      simp [hSplit]
  | _ => trivial

/-- An `until` filter that takes an event has been marked for one by then. -/
theorem exists_untilBy {before : List EventMessage} {event : EventMessage}
    (heard : l.Heard before s) {i : Nat} {f : CompiledListenFilter}
    (hFilter : l.untilFilters[i]? = some f)
    (hTakes : (l.takes f event (l.mark event (s.untilFilters.take i)
      (l.accept s event).1.group).2).isSome = true) (after : List EventMessage) :
    ∃ e, l.UntilBy (before ++ event :: after) i e := by
  have hEntry := heard.kept.until_.getElem? i
  rw [hFilter] at hEntry
  obtain ⟨⟨g, taken⟩, hMark, rfl⟩ := Option.map_eq_some_iff.mp hEntry.symm
  cases taken with
  | false => exact ⟨event, before, after, s, rfl, heard, g, hMark, hTakes⟩
  | true =>
      obtain ⟨_, e, hBy⟩ := (heard.kept.until_.by_iff i g).mp hMark
      exact ⟨e, hBy.append (event :: after)⟩

/-- The first filter sees an event before the others of its strategy. -/
theorem untilBy_zero_taken {event : EventMessage} (hBy : l.UntilBy events 0 event) :
    l.Met events event fun s => l.TakenByAny l.untilFilters s event := by
  obtain ⟨before, after, s, hSplit, heard, f, hMark, hTakes⟩ := hBy
  refine ⟨before, after, s, hSplit, heard, f, ?_, hTakes⟩
  rw [← heard.kept.until_.same]
  exact List.mem_map_of_mem (List.mem_of_getElem? hMark)

/-- An event that one filter takes is one that each of them takes, or the task is past it. -/
def Unanimous (l : Listening) (events : List EventMessage) : Prop :=
  ∀ before event after s, events = before ++ event :: after → l.Heard before s →
    s.untilSatisfied = false → l.TakenByAny l.untilFilters s event →
      ∀ i < l.untilFilters.length, ∃ e, l.UntilBy events i e

/-- Where the events that one filter of an `until` strategy takes are taken by all of them, its flag
tells whether some event has been taken by any. -/
theorem any_iff (heard : l.Heard events s) (hSource : l.untilExpression = none)
    (hSome : l.untilFilters ≠ []) (unanimous : l.Unanimous events) :
    s.untilSatisfied = true ↔
      ∃ event, l.Met events event fun s => l.TakenByAny l.untilFilters s event := by
  rw [heard.untilSatisfied_iff hSource]
  constructor
  · rintro ⟨_, hEach⟩
    obtain ⟨event, hBy⟩ := hEach 0 (List.length_pos_iff.mpr hSome)
    exact ⟨event, untilBy_zero_taken hBy⟩
  · rintro ⟨event, before, after, t, hSplit, hBefore, hTaken⟩
    refine ⟨hSome, ?_⟩
    cases hFlag : t.untilSatisfied with
    | true =>
        intro i hi
        obtain ⟨e, hBy⟩ := ((hBefore.untilSatisfied_iff hSource).mp hFlag).2 i hi
        rw [hSplit]
        exact ⟨e, hBy.append _⟩
    | false => exact unanimous before event after t hSplit hBefore hFlag hTaken

theorem unanimous_of_one {filter : EventFilterDef} (hFilters : l.untilFilters = [buildFilter filter]) :
    l.Unanimous events := by
  rintro before event after t rfl heard _ ⟨f, hMem, hTakes⟩ i hi
  rw [hFilters, List.length_singleton, Nat.lt_one_iff] at hi
  rw [hFilters, List.mem_singleton] at hMem
  subst hi hMem
  exact exists_untilBy heard (by rw [hFilters]; rfl) hTakes after

theorem unanimous_of_together {filters : List EventFilterDef}
    (hFilters : l.untilFilters = filters.map buildFilter)
    (together : l.Together (.any filters) events) : l.Unanimous events := by
  intro before event after t hSplit heard hFlag hTaken i hi
  rw [hFilters] at hTaken
  rw [hFilters, List.length_map] at hi
  exact ⟨event, before, after, t, hSplit, heard, together.2 before event after t hSplit heard hFlag hTaken i hi⟩

/-- The flag of an `until` strategy tells whether the strategy has been heard, where its kind makes
no difference to the events received. -/
theorem untilHeard_iff {strategy : ListenTo} (hSource : l.untilExpression = none)
    (hFilters : l.untilFilters = strategy.filters.map buildFilter) (heard : l.Heard events s)
    (together : l.Together strategy events) :
    (l.hasUntil = true → s.untilSatisfied = true) ↔ l.UntilHeard strategy events := by
  cases strategy with
  | one filter =>
      have hSome : l.untilFilters ≠ [] := by simp [hFilters, ListenTo.filters]
      have hUntil : l.hasUntil = true := by simp [hasUntil, hSome]
      rw [UntilHeard, any_iff heard hSource hSome (unanimous_of_one hFilters), hFilters]
      simp [hUntil, ListenTo.filters]
  | any filters =>
      have hSome : l.untilFilters ≠ [] := by simpa [hFilters, ListenTo.filters] using together.1
      have hUntil : l.hasUntil = true := by simp [hasUntil, hSome]
      rw [UntilHeard, any_iff heard hSource hSome (unanimous_of_together hFilters together), hFilters]
      simp [hUntil, ListenTo.filters]
  | all filters =>
      have hLength : filters.length = l.untilFilters.length := by simp [hFilters, ListenTo.filters]
      rw [UntilHeard, heard.untilSatisfied_iff hSource, hLength]
      constructor
      · intro hFlag i hi
        exact (hFlag (hasUntil_of_filters hi).1).2 i hi
      · intro hEach hUntil
        refine ⟨?_, hEach⟩
        simpa [hasUntil, hSource] using hUntil

/-- A task is done with its events when both of its strategies are. -/
theorem complete_iff_due {strategy : ListenTo} (hSource : l.untilExpression = none)
    (hFilters : l.untilFilters = strategy.filters.map buildFilter) (heard : l.Heard events s)
    (served : l.Served events) (together : l.Together strategy events) :
    l.complete s = true ↔ l.Due strategy events := by
  rw [Due, ← untilHeard_iff hSource hFilters heard together, BaseHeard]
  cases hNeed : l.need with
  | one =>
      constructor
      · intro hComplete
        obtain ⟨event, _, hMatched⟩ := exists_matched served heard hNeed hComplete
        exact ⟨⟨event, hMatched⟩, ((complete_iff_of_one hNeed).mp hComplete).2⟩
      · rintro ⟨⟨event, hMatched⟩, hFlag⟩
        have hMem := (heard.kept.consumed_iff event).mpr (wanted_of_matched hNeed hMatched)
        exact (complete_iff_of_one hNeed).mpr ⟨Or.inr (List.ne_nil_of_mem hMem), hFlag⟩
  | all count => rw [complete_iff_of_all hNeed, heard.kept.satisfied_iff hNeed]

/-- In every run that keeps the kind of its `until` strategy, the loop goes on while its
events do not satisfy both strategies, and stops as soon as they do. -/
theorem gather_stops {strategy : ListenTo} (hSource : l.untilExpression = none)
    (hFilters : l.untilFilters = strategy.filters.map buildFilter) {ctx : ExecContext} {fuel : Nat}
    {σ : EngineState} {choices : List engine.Choice}
    {d : Config engineSig (Except WorkflowError (List EventMessage))}
    (hRun : engine.run (engine.advance (l.gather ctx fuel l.start).run σ) choices = some d)
    (keeps : l.Keeps strategy
      (deliveries (engine.advance (l.gather ctx fuel l.start).run σ) choices)) :
    l.Stops ctx fuel strategy
      (deliveries (engine.advance (l.gather ctx fuel l.start).run σ) choices) d := by
  have stands := gather_run hRun
  generalize deliveries (engine.advance (l.gather ctx fuel l.start).run σ) choices = replies at *
  cases stands with
  | @waits events s _ _ _ heard listening left =>
      refine Or.inl ⟨_, _, _, rfl, fun hDue => ?_⟩
      have hHeard : l.Heard (received (events.map some)) s := by rwa [received_map_some]
      have hDone := (complete_iff_due hSource hFilters hHeard keeps.served keeps.together).mpr hDue
      rw [listening] at hDone
      cases hDone
  | @returns events s _ heard complete =>
      refine Or.inr (Or.inl ⟨_, _, rfl, ?_, ?_⟩)
      · have hHeard : l.Heard (received (events.map some)) s := by rwa [received_map_some]
        exact (complete_iff_due hSource hFilters hHeard keeps.served keeps.together).mp complete
      · intro before event after hSplit hDue
        rw [received_map_some] at hSplit
        subst hSplit
        obtain ⟨t, hBefore, hListening⟩ := heard.before
        have hDone := (complete_iff_due hSource hFilters hBefore
          (keeps.served.before (received_map_some _)) (keeps.together.before (received_map_some _))).mpr
          hDue
        rw [hListening] at hDone
        cases hDone
  | closed heard listening => exact absurd (by simp) keeps.open_
  | fails cause =>
      rcases cause with rfl | hSome
      · exact Or.inr (Or.inr (Or.inl ⟨_, rfl⟩))
      · rw [hSource] at hSome
        cases hSome
  | exhausted spent => exact Or.inr (Or.inr (Or.inr spent))

end Listening

theorem compiled_until {env : RuntimeInner} {vars : Map} {listen : ListenDefinition}
    {strategy : EventConsumption} (hUntil : listen.until_ = some (.strategy strategy)) :
    (Listening.compiled env vars listen).untilExpression = none ∧
      (Listening.compiled env vars listen).untilFilters =
        (compileListenTo strategy).filters.map buildFilter := by
  have hCompiled : (compileListen listen).until_ =
      some (.strategy (compileListenTo strategy).filters) := by
    rw [compileListen, hUntil, compileListenUntil]
    cases compileListenTo strategy <;> rfl
  rw [Listening.untilExpression, Listening.untilFilters, Listening.compiled, hCompiled]
  exact ⟨rfl, rfl⟩

/-- Every run of a listen task with an `until` strategy keeps the kind of the strategy, when
that makes no difference to the events received. -/
theorem listenUntil_stops {env : RuntimeInner} {vars : Map} {listen : ListenDefinition}
    {strategy : EventConsumption} (hUntil : listen.until_ = some (.strategy strategy))
    {ctx : ExecContext} {fuel : Nat} {σ : EngineState} {choices : List engine.Choice}
    {d : Config engineSig (Except WorkflowError (List EventMessage))}
    (hRun : engine.run (engine.advance ((Listening.compiled env vars listen).gather ctx fuel
      (Listening.compiled env vars listen).start).run σ) choices = some d)
    (keeps : (Listening.compiled env vars listen).Keeps (compileListenTo strategy)
      (deliveries (engine.advance ((Listening.compiled env vars listen).gather ctx fuel
        (Listening.compiled env vars listen).start).run σ) choices)) :
    (Listening.compiled env vars listen).Stops ctx fuel (compileListenTo strategy)
      (deliveries (engine.advance ((Listening.compiled env vars listen).gather ctx fuel
        (Listening.compiled env vars listen).start).run σ) choices) d := by
  obtain ⟨hSource, hFilters⟩ := compiled_until hUntil
  exact Listening.gather_stops hSource hFilters hRun keeps

section Examples

open Sample Listening

def anyType (types : List String) : EventConsumption :=
  { one := none, all := none
    any := some (types.map fun type => { with_ := some [("type", .string type)], correlate := none }) }

/-- A task that listens until one of several events comes. -/
def untilAny (types : List String) : ListenDefinition :=
  { to_ := anyType [], until_ := some (.strategy (anyType types)), read := none }

/-- The sample runtime listens as the definition is compiled. -/
def anyOf (types : List String) : Listening := .compiled runtime [] (untilAny types)

/-- A single event that ends the listening is consumed, and the task stops with it. -/
theorem listenUntil_stops_single : ∃ τ,
    engine.run (listening (anyOf ["stop"])) (replying [some (eventOf "stop")]) =
        some (.done (.ok [eventOf "stop"]), τ) ∧
      (anyOf ["stop"]).Stops (executionContext runtime (workflow [] []) "id" .null 0) 4
        (.any [typeFilter "stop"])
        (deliveries (listening (anyOf ["stop"])) (replying [some (eventOf "stop")]))
        (.done (.ok [eventOf "stop"]), τ) := by
  obtain ⟨τ, hRun⟩ : ∃ τ, engine.run (listening (anyOf ["stop"]))
      (replying [some (eventOf "stop")]) = some (.done (.ok [eventOf "stop"]), τ) := ⟨_, rfl⟩
  have hUntil : (untilAny ["stop"]).until_ = some (.strategy (anyType ["stop"])) := rfl
  refine ⟨τ, hRun, listenUntil_stops hUntil hRun ?_⟩
  show (anyOf ["stop"]).Keeps (.any [typeFilter "stop"]) [some (eventOf "stop")]
  constructor
  · simp
  · intro before event after s hSplit heard hNeed _
    have hMatches : (anyOf ["stop"]).matchesOne s event = true := by
      rw [matchesOne, heard.kept.single hNeed]
      rfl
    exact ⟨event, before, [], s, rfl, heard, hMatches⟩
  · refine ⟨by simp, fun before event after s hSplit heard _ _ i hi => ?_⟩
    -- the task meets its only event at its start
    obtain ⟨rfl, rfl⟩ := met_single (P := fun t => t = s) ⟨before, after, s, hSplit, heard, rfl⟩
    rw [List.length_singleton, Nat.lt_one_iff] at hi
    subst hi
    exact ⟨_, rfl, rfl⟩

/-- The strategy takes the event, and the task still waits for one of the other kind. -/
theorem untilAny_waits : ∃ epoch next τ,
    engine.run (listening (anyOf ["stop", "end"])) (replying [some (eventOf "stop")]) =
        some (.act (.receive epoch) next, τ) ∧
      ¬ (anyOf ["stop", "end"]).Stops (executionContext runtime (workflow [] []) "id" .null 0) 4
        (.any [typeFilter "stop", typeFilter "end"])
        (deliveries (listening (anyOf ["stop", "end"])) (replying [some (eventOf "stop")]))
        (.act (.receive epoch) next, τ) := by
  refine ⟨_, _, _, rfl, ?_⟩
  rintro (⟨_, _, _, _, hNot⟩ | ⟨_, _, hDone, _⟩ | ⟨_, hDone⟩ | hSpent)
  · apply hNot
    exact ⟨⟨eventOf "stop", [], [], _, rfl, .start, rfl⟩,
      eventOf "stop", [], [], _, rfl, .start, _, List.mem_cons_self, rfl⟩
  · cases hDone
  · cases hDone
  · revert hSpent
    decide

end Examples

end OwsRuntime
