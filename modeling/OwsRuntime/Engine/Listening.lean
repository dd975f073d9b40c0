import OwsRuntime.Async.Inversion
import OwsRuntime.Compile
import OwsRuntime.Engine.Turns

/-! What a listen task does with the events that it receives, as functions of them. Each
turn of its loop takes one event, and computes these functions. -/
namespace OwsRuntime

open Async Handler

/-- A listen task under way, and the variables of its expressions. -/
structure Listening where
  env : RuntimeInner
  vars : Map
  listen : ListenDef

namespace Listening

variable (l : Listening)

def filters : List CompiledListenFilter := (listenFilters l.listen.to_).1

def need : ListenNeed := (listenFilters l.listen.to_).2

def untilExpression : Option String :=
  match l.listen.until_ with
  | some (.expression source) => some source
  | _ => none

def untilFilters : List CompiledListenFilter :=
  match l.listen.until_ with
  | some (.strategy filters) => filters.map buildFilter
  | _ => []

def hasUntil : Bool := l.untilExpression.isSome || !l.untilFilters.isEmpty

def read : String := l.listen.read.getD "data"

def start : GatherState :=
  { consumed := [], filters := l.filters.map (·, false)
    untilFilters := l.untilFilters.map (·, false), untilSatisfied := false, group := [] }

/-- The loop of the task, for as many events as `fuel` says. -/
def gather (ctx : ExecContext) (fuel : Nat) : GatherState → Run (List EventMessage) :=
  gatherListenEvents l.env ctx l.vars l.need l.untilExpression l.hasUntil l.read fuel

/-- The value of a correlation key in an event. -/
def extracted (event : EventMessage) (source : String) : Option Value :=
  (l.env.evaluateSource source (event.data.getD .null) l.vars).toOption

/-- The value that a correlation key has to have. -/
def expected (expect : String) : Option Value :=
  (l.env.evaluateSource expect ((l.vars.lookup "context").getD .null) l.vars).toOption

/-- The group with the values of some keys, when they agree with it. -/
def correlated (event : EventMessage) : List CorrelationDef → Map → Option Map
  | [], group => some group
  | key :: rest, group =>
      (l.extracted event key.from_).bind fun got =>
        match key.expect with
        | some expect => (l.expected expect).bind fun want =>
            if valuesEqual got want then correlated event rest group else none
        | none =>
            match group.lookup key.from_ with
            | some existing =>
                if valuesEqual got existing then correlated event rest group else none
            | none => correlated event rest (Map.insert key.from_ got group)

/-- The group after a filter has taken an event, if it takes it. -/
def takes (filter : CompiledListenFilter) (event : EventMessage) (group : Map) : Option Map :=
  if filter.matcher.matches_ (CloudEvent.fromMessage event) then
    l.correlated event filter.correlate group
  else none

/-- The filters that have taken an event, after one more event. -/
def mark (event : EventMessage) :
    List (CompiledListenFilter × Bool) → Map → List (CompiledListenFilter × Bool) × Map
  | [], group => ([], group)
  | (f, true) :: rest, group => ((f, true) :: (mark event rest group).1, (mark event rest group).2)
  | (f, false) :: rest, group =>
      ((f, (l.takes f event group).isSome) ::
          (mark event rest ((l.takes f event group).getD group)).1,
        (mark event rest ((l.takes f event group).getD group)).2)

/-- Whether an event counts for a strategy that needs one event. -/
def matchesOne (s : GatherState) (event : EventMessage) : Bool :=
  s.filters.isEmpty || s.filters.any fun f => (l.takes f.1 event s.group).isSome

/-- The state after an event has reached the strategy, and whether it was accepted. -/
def accept (s : GatherState) (event : EventMessage) : GatherState × Bool :=
  match l.need with
  | .one => if l.matchesOne s event then ({ s with consumed := s.consumed ++ [event] }, true)
      else (s, false)
  | .all _ =>
      let marked := l.mark event s.filters s.group
      let advanced := marked.1.map Prod.snd != s.filters.map Prod.snd
      ({ s with
        filters := marked.1, group := marked.2
        consumed := if advanced then s.consumed ++ [event] else s.consumed }, advanced)

/-- The state after an event has reached the `until` strategy. -/
def acceptUntil (s : GatherState) (event : EventMessage) (accepted : Bool) : GatherState :=
  if s.untilFilters.isEmpty then s
  else
    let marked := l.mark event s.untilFilters s.group
    if marked.1.map Prod.snd != s.untilFilters.map Prod.snd then
      { s with
        untilFilters := marked.1, group := marked.2
        consumed := if accepted then s.consumed else s.consumed ++ [event]
        untilSatisfied := GatherState.satisfied marked.1 }
    else { s with untilFilters := marked.1, group := marked.2 }

/-- The state after an event has been compared with the filters. -/
def sort (s : GatherState) (event : EventMessage) : GatherState :=
  l.acceptUntil (l.accept s event).1 event (l.accept s event).2

/-- Whether the `until` expression holds of some events. -/
def stops (consumed : List EventMessage) : Except WorkflowError Bool :=
  l.env.condition (.array (consumed.map (readEvent · l.read))) l.vars false l.untilExpression

/-- The state after one more event. -/
def next (s : GatherState) (event : EventMessage) : Except WorkflowError GatherState :=
  (l.stops (l.sort s event).consumed).map fun stop =>
    { l.sort s event with untilSatisfied := (l.sort s event).untilSatisfied || stop }

end Listening

/-- A computation that returns within a turn, and only takes notes. -/
structure Computes {α : Type} (p : Future α) (value : α) : Prop where
  turn : ∀ σ : EngineState, ∃ τ, σ.Noted τ ∧ engine.advance p σ = (.done value, τ)

theorem Computes.pure {α : Type} (value : α) : Computes (Pure.pure value) value :=
  ⟨fun σ => ⟨σ, .refl σ, rfl⟩⟩

theorem Computes.bind {α β : Type} {p : Future α} {f : α → Future β} {first : α} {value : β}
    (computes : Computes p first) (rest : Computes (f first) value) :
    Computes (p >>= f) value := by
  constructor
  intro σ
  obtain ⟨τ, hNoted, hFirst⟩ := computes.turn σ
  obtain ⟨υ, hMore, hRest⟩ := rest.turn τ
  exact ⟨υ, hNoted.trans hMore, (advance_bind_of_done hFirst).trans hRest⟩

theorem evalExpr_computes (env : RuntimeInner) (source : String) (input : Value) (vars : Map) :
    Computes (evalExpr env source input vars none).run
      ((env.evaluateSource source input vars).mapError (toExpressionError · none)) :=
  ⟨fun σ => advance_evalExpr env σ source input vars none⟩

namespace Listening

variable (l : Listening)

/-- The correlation keys of an event are computed without a wait. The values that are missing are
taken into the group, and those that are there must be the same. -/
theorem correlateKeys_computes (event : EventMessage) (keys : List CorrelationDef) (group : Map) :
    Computes (correlateKeys l.env event l.vars keys group) (l.correlated event keys group) := by
  induction keys generalizing group with
  | nil => exact .pure _
  | cons key rest ih =>
      rw [correlateKeys, correlated, extracted]
      apply Computes.bind (evalExpr_computes ..)
      cases l.env.evaluateSource key.from_ (event.data.getD .null) l.vars with
      | error e => exact .pure _
      | ok got =>
          simp only [Except.mapError, Except.toOption, Option.bind_some]
          cases key.expect with
          | some expect =>
              simp only [expected]
              apply Computes.bind (evalExpr_computes ..)
              cases l.env.evaluateSource expect ((l.vars.lookup "context").getD .null) l.vars with
              | error e => exact .pure _
              | ok want =>
                  simp only [Except.mapError, Except.toOption, Option.bind_some]
                  split
                  · exact ih group
                  · exact .pure _
          | none =>
              cases group.lookup key.from_ with
              | some existing =>
                  simp only
                  split
                  · exact ih group
                  · exact .pure _
              | none => exact ih _

theorem filterMatches_computes (filter : CompiledListenFilter) (event : EventMessage) (group : Map) :
    Computes (filterMatches l.env filter event l.vars group) (l.takes filter event group) := by
  rw [filterMatches, takes]
  split
  · exact l.correlateKeys_computes event filter.correlate group
  · exact .pure _

theorem matchesAny_computes (event : EventMessage) (filters : List CompiledListenFilter)
    (group : Map) : Computes (matchesAny l.env event l.vars filters group)
      (filters.any fun f => (l.takes f event group).isSome) := by
  induction filters with
  | nil => exact .pure _
  | cons f rest ih =>
      rw [matchesAny]
      apply Computes.bind (l.filterMatches_computes f event group)
      rw [List.any_cons]
      cases l.takes f event group with
      | some taken => exact .pure _
      | none => exact ih

theorem markSatisfied_computes (event : EventMessage) (filters : List (CompiledListenFilter × Bool))
    (group : Map) : Computes (markSatisfied l.env event l.vars filters group)
      (l.mark event filters group) := by
  induction filters generalizing group with
  | nil => exact .pure _
  | cons entry rest ih =>
      obtain ⟨f, taken⟩ := entry
      cases taken with
      | true => exact .bind (ih group) (.pure _)
      | false =>
          rw [markSatisfied, mark]
          apply Computes.bind (l.filterMatches_computes f event group)
          cases l.takes f event group with
          | some more => exact .bind (ih more) (.pure _)
          | none => exact .bind (ih group) (.pure _)

theorem matchesOne_computes (s : GatherState) (event : EventMessage) :
    Computes (s.matchesOne l.env l.vars event) (l.matchesOne s event) := by
  rw [GatherState.matchesOne, matchesOne]
  cases hFilters : s.filters.isEmpty with
  | true => exact .pure _
  | false =>
      have hAny := l.matchesAny_computes event (s.filters.map Prod.fst) s.group
      rw [List.any_map] at hAny
      exact hAny

theorem accept_computes (s : GatherState) (event : EventMessage) :
    Computes (s.accept l.env l.need l.vars event) (l.accept s event) := by
  rw [accept]
  cases l.need with
  | one =>
      rw [GatherState.accept]
      apply Computes.bind (l.matchesOne_computes s event)
      exact .pure _
  | all count =>
      rw [GatherState.accept]
      apply Computes.bind (l.markSatisfied_computes event s.filters s.group)
      exact .pure _

theorem acceptUntil_computes (s : GatherState) (event : EventMessage) (accepted : Bool) :
    Computes (s.acceptUntil l.env l.vars event accepted) (l.acceptUntil s event accepted) := by
  rw [GatherState.acceptUntil, acceptUntil]
  split
  · exact .pure _
  · apply Computes.bind (l.markSatisfied_computes event s.untilFilters s.group)
    simp only
    split
    · exact .pure _
    · exact .pure _

theorem stops_computes (consumed : List EventMessage) :
    Computes (conditionHolds l.env (.array (consumed.map (readEvent · l.read))) l.vars false
      l.untilExpression).run (l.stops consumed) :=
  ⟨fun σ => advance_conditionHolds l.env σ _ l.vars false l.untilExpression⟩

/-- Whether the task has received what it listens for. -/
def complete (s : GatherState) : Bool := s.complete l.need l.hasUntil

/-- The states of the task after the events that it has received. -/
inductive Heard : List EventMessage → GatherState → Prop where
  | start : Heard [] l.start
  | more {events : List EventMessage} {s t : GatherState} {event : EventMessage}
      (heard : Heard events s) (listening : l.complete s = false) (step : l.next s event = .ok t) :
      Heard (events ++ [event]) t

/-- What a listen task does once it is woken up. -/
def onReply (ctx : ExecContext) (fuel : Nat) (s : GatherState) :
    Option (Option EventMessage) → Run (List EventMessage)
  | none => ctx.stop
  | some none => return s.consumed
  | some (some event) => do
      let accepted ← (s.accept l.env l.need l.vars event : Future _)
      let t ← (accepted.1.acceptUntil l.env l.vars event accepted.2 : Future _)
      let stop ← conditionHolds l.env (.array (t.consumed.map (readEvent · l.read))) l.vars false
        l.untilExpression
      l.gather ctx fuel { t with untilSatisfied := t.untilSatisfied || stop }

/-- Where the loop may stand after some replies of its subscription, when it may take
`bound` events. A reply without an event closes the subscription. -/
inductive Stands (ctx : ExecContext) (bound : Nat) :
    List (Option EventMessage) → Config engineSig (Except WorkflowError (List EventMessage)) → Prop where
  | waits {events : List EventMessage} {s : GatherState} {epoch fuel : Nat} {σ : EngineState}
      (heard : l.Heard events s) (listening : l.complete s = false)
      (left : events.length + (fuel + 1) = bound) :
      Stands ctx bound (events.map some)
        (.act (.receive epoch) fun r => (l.onReply ctx fuel s r).run, σ)
  | returns {events : List EventMessage} {s : GatherState} {σ : EngineState}
      (heard : l.Heard events s) (complete : l.complete s = true) :
      Stands ctx bound (events.map some) (.done (.ok s.consumed), σ)
  | closed {events : List EventMessage} {s : GatherState} {σ : EngineState}
      (heard : l.Heard events s) (listening : l.complete s = false) :
      Stands ctx bound (events.map some ++ [none]) (.done (.ok s.consumed), σ)
  | fails {replies : List (Option EventMessage)} {e : WorkflowError} {σ : EngineState}
      (cause : e = ctx.cancelledError ∨ l.untilExpression.isSome) :
      Stands ctx bound replies (.done (.error e), σ)
  | exhausted {replies : List (Option EventMessage)}
      {next : Empty → Program engineSig (Except WorkflowError (List EventMessage))} {σ : EngineState}
      (spent : bound ≤ replies.length) : Stands ctx bound replies (.act .outOfFuel next, σ)

variable {l} {ctx : ExecContext}

/-- The loop waits for an event while it is not complete. -/
theorem gather_waits {s : GatherState} (hListening : l.complete s = false) (fuel : Nat)
    (σ : EngineState) :
    engine.advance (l.gather ctx (fuel + 1) s).run σ =
      (.act (.receive σ.world.notifications) fun r => (l.onReply ctx fuel s r).run, σ) := by
  have hLoop : (l.gather ctx (fuel + 1) s).run = .act .notified fun epoch =>
      .act (.receive epoch) fun r => (l.onReply ctx fuel s r).run := by
    rw [gather, gatherListenEvents, if_neg (by simpa [complete] using hListening)]
    refine congrArg (@Program.act engineSig _ Act.notified) (funext fun epoch =>
      congrArg (@Program.act engineSig _ (Act.receive epoch)) (funext fun reply => ?_))
    rcases reply with _ | _ | event <;> rfl
  have hMode : engine.mode (.receive σ.world.notifications) ≠ .sync := nofun
  have hNotified : engine.perform .notified σ = some (σ.world.notifications, σ) := rfl
  have hTurn := engine.advance_act_sync (a := .notified) (fun epoch : Nat => .act (.receive epoch)
    fun r => (l.onReply ctx fuel s r).run) rfl hNotified
  rw [hLoop]
  exact hTurn.trans (engine.advance_act_of_ne _ σ hMode)

theorem gather_stands {events : List EventMessage} {s : GatherState} (heard : l.Heard events s)
    {fuel bound : Nat} (hLeft : events.length + fuel = bound) (σ : EngineState) :
    l.Stands ctx bound (events.map some) (engine.advance (l.gather ctx fuel s).run σ) := by
  cases fuel with
  | zero => exact .exhausted (by simp [← hLeft])
  | succ fuel =>
      cases hComplete : l.complete s with
      | true =>
          rw [gather, gatherListenEvents, if_pos (show s.complete l.need l.hasUntil = true from hComplete)]
          exact .returns heard hComplete
      | false =>
          rw [gather_waits hComplete]
          exact .waits heard hComplete hLeft

/-- What an event does: the loop goes on in the next state, or the `until` expression fails. -/
theorem onReply_stands {events : List EventMessage} {s : GatherState} (heard : l.Heard events s)
    (hListening : l.complete s = false) {fuel bound : Nat}
    (hLeft : events.length + (fuel + 1) = bound) (event : EventMessage) (σ : EngineState) :
    l.Stands ctx bound ((events ++ [event]).map some)
      (engine.advance (l.onReply ctx fuel s (some (some event))).run σ) := by
  obtain ⟨τ, _, hAccept⟩ := (l.accept_computes s event).turn σ
  obtain ⟨υ, _, hUntil⟩ :=
    (l.acceptUntil_computes (l.accept s event).1 event (l.accept s event).2).turn τ
  obtain ⟨φ, _, hStops⟩ := (l.stops_computes (l.sort s event).consumed).turn υ
  have hTurn : engine.advance (l.onReply ctx fuel s (some (some event))).run σ =
      engine.advance (do
        let stop ← conditionHolds l.env (.array ((l.sort s event).consumed.map (readEvent · l.read)))
          l.vars false l.untilExpression
        l.gather ctx fuel { l.sort s event with
          untilSatisfied := (l.sort s event).untilSatisfied || stop } :
        Run (List EventMessage)).run υ :=
    (advance_bind_of_ok (advance_lift_of_done hAccept)).trans
      (advance_bind_of_ok (advance_lift_of_done hUntil))
  rw [hTurn]
  cases hStop : l.stops (l.sort s event).consumed with
  | error e =>
      rw [hStop] at hStops
      rw [advance_bind_of_error hStops]
      apply Stands.fails
      cases hSource : l.untilExpression with
      | some source => exact Or.inr rfl
      | none =>
          rw [stops, hSource] at hStop
          cases hStop
  | ok stop =>
      rw [hStop] at hStops
      rw [advance_bind_of_ok hStops]
      have hNext : l.next s event = .ok { l.sort s event with
          untilSatisfied := (l.sort s event).untilSatisfied || stop } := by
        rw [next, hStop]
        rfl
      apply gather_stands (heard.more hListening hNext)
      rw [List.length_append, List.length_singleton]
      omega

end Listening

section Deliveries

variable {α : Type}

/-- What a choice delivers to a program that waits for an event. -/
def delivery (c : Config engineSig α) : engine.Choice → Option (Option EventMessage)
  | .turn .here =>
      match c.1 with
      | .act (.receive epoch) _ => (perform (.receive epoch) c.2).bind Prod.fst
      | _ => none
  | _ => none

/-- What the subscription delivers to a program in the course of a run. -/
def deliveries (c : Config engineSig α) : List engine.Choice → List (Option EventMessage)
  | [] => []
  | choice :: rest =>
      (delivery c choice).toList ++
        match engine.choose c choice with
        | some d => deliveries d rest
        | none => []

end Deliveries

namespace Listening

variable {l : Listening} {ctx : ExecContext}

/-- One choice of a run: the listening waits on, or takes in the event that has been delivered and
stands after it. -/
theorem choose_stands {bound : Nat} {replies : List (Option EventMessage)}
    {c d : Config engineSig (Except WorkflowError (List EventMessage))} {choice : engine.Choice}
    (stands : l.Stands ctx bound replies c) (hChoose : engine.choose c choice = some d) :
    l.Stands ctx bound (replies ++ (delivery c choice).toList) d := by
  cases choice with
  | env e =>
      cases hChoose
      have hDelivery : delivery c (.env e) = none := rfl
      rw [hDelivery, Option.toList_none, List.append_nil]
      cases stands with
      | waits heard listening left => exact .waits heard listening left
      | returns heard complete => exact .returns heard complete
      | closed heard listening => exact .closed heard listening
      | fails cause => exact .fails cause
      | exhausted spent => exact .exhausted spent
  | turn move =>
      cases stands with
      | @waits events s epoch fuel σ heard listening left =>
          cases move with
          | here =>
              have hTurn : (perform (.receive epoch) σ).map (fun r =>
                  engine.advance (l.onReply ctx fuel s r.1).run r.2) = some d := hChoose
              obtain ⟨⟨reply, τ⟩, hPerform, rfl⟩ := Option.map_eq_some_iff.mp hTurn
              have hDelivery : delivery (.act (.receive epoch) fun r =>
                  (l.onReply ctx fuel s r).run, σ) (.turn .here) = reply :=
                congrArg (·.bind Prod.fst) hPerform
              rw [hDelivery]
              rcases reply with _ | _ | event
              · exact .fails (Or.inl rfl)
              · exact .closed heard listening
              · rw [Option.toList_some, ← List.map_singleton, ← List.map_append]
                exact onReply_stands heard listening left event τ
          | _ => cases hChoose
      | exhausted => cases move <;> cases hChoose
      | _ => cases move <;> cases hChoose

/-- Wherever a run of the loop stands, it has computed the state of what it has received. -/
theorem run_stands {bound : Nat} {replies : List (Option EventMessage)}
    {c d : Config engineSig (Except WorkflowError (List EventMessage))}
    {choices : List engine.Choice} (stands : l.Stands ctx bound replies c)
    (hRun : engine.run c choices = some d) :
    l.Stands ctx bound (replies ++ deliveries c choices) d := by
  induction choices generalizing replies c with
  | nil =>
      cases hRun
      rwa [deliveries, List.append_nil]
  | cons choice rest ih =>
      rw [run_cons, Option.bind_eq_some_iff] at hRun
      obtain ⟨next, hNext, hRest⟩ := hRun
      have hLater := ih (choose_stands stands hNext) hRest
      rw [deliveries, hNext, ← List.append_assoc]
      exact hLater

theorem gather_run {fuel : Nat} {σ : EngineState}
    {d : Config engineSig (Except WorkflowError (List EventMessage))} {choices : List engine.Choice}
    (hRun : engine.run (engine.advance (l.gather ctx fuel l.start).run σ) choices = some d) :
    l.Stands ctx fuel (deliveries (engine.advance (l.gather ctx fuel l.start).run σ) choices) d :=
  run_stands (gather_stands .start (Nat.zero_add fuel) σ) hRun

/-- A listen task subscribes, and goes through its loop. -/
theorem taskListen_eq (env : RuntimeInner) (r : Runner) (wf : CompiledWorkflow) (ctx : ExecContext)
    (listen : ListenDef) (foreach_ : Option (ListenForeachDef × List CompiledTask))
    (exprCtx : ExpressionContext) :
    let l : Listening := { env, vars := exprCtx.asVariableMap, listen }
    taskListen env r wf ctx listen foreach_ exprCtx = (do
      subscribe
      let consumed ← l.gather ctx r.events l.start
      let values := consumed.map (readEvent · l.read)
      match foreach_ with
      | some (fe, body) =>
          return .array (← foreachItems r wf ctx fe body (fe.at_.getD "index") 0 values)
      | none => return .array values) := by
  obtain ⟨to_, read, until_⟩ := listen
  rcases until_ with _ | _ | _ <;> rfl

end Listening
end OwsRuntime
