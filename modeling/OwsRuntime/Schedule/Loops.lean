import OwsRuntime.Schedule.Trigger
import OwsRuntime.Async.Machine

/-! The loops of the schedules, as programs over requests of their own. They share the
cancellation token of their set and the count of the executions they have triggered. -/
namespace OwsRuntime

open Async

inductive ScheduleAct where
  /-- The task of a loop is run for the first time. -/
  | spawned
  | isCancelled
  /-- A `Notified` future is made. Its epoch counts the notifications until then. -/
  | notified
  | epochSeconds
  /-- Waits for a timer, or for a notification after the given epoch. -/
  | sleep (duration epoch : Nat)
  | subscribe
  /-- Waits for an event, or for a notification after the given epoch. -/
  | receive (epoch : Nat)
  /-- `triggered.fetch_add` -/
  | trigger
  /-- Runs the workflow of the loop. -/
  | run (input : Value)
  /-- The loop has gone on for as many rounds as its number says. It waits for ever. -/
  | outOfFuel
deriving Repr

namespace ScheduleAct

abbrev Resp : ScheduleAct → Type
  | spawned => Unit
  | isCancelled => Bool
  | notified => Nat
  | epochSeconds => Int
  | sleep _ _ => Bool
  | subscribe => Except WorkflowError Unit
  | receive _ => Option (Option EventMessage)
  | trigger => Unit
  | run _ => Except WorkflowError Value
  | outOfFuel => Empty

def mode : ScheduleAct → Mode
  | isCancelled => .sync
  | notified => .sync
  | epochSeconds => .sync
  | trigger => .sync
  | _ => .await

end ScheduleAct

/-- The replies of the outside world. They may change at any time. -/
structure ScheduleOracle where
  timerReady : Bool
  subscribe : Except WorkflowError Unit
  event : Option (Option EventMessage)
  notifiedFirst : Bool
  execution : Option (Except WorkflowError Value)

/-- What the loops of a set share. -/
structure ScheduleWorld where
  cancelled : Bool
  notifications : Nat
  triggered : Nat
  clock : Int
  oracle : ScheduleOracle

/-- The events that a loop has received, and what it had received at each of its firings.
Nothing reads either back. -/
structure ScheduleLoop where
  heard : List EventMessage
  firings : List (List EventMessage)
deriving DecidableEq, Repr

def ScheduleLoop.initial : ScheduleLoop := { heard := [], firings := [] }

abbrev scheduleSig : Signature :=
  { Act := ScheduleAct, Resp := ScheduleAct.Resp, Alarm := Empty, Local := ScheduleLoop
    Shared := Unit, World := ScheduleWorld }

namespace ScheduleWorld

/-- Which of a timer or event and a notification wakes a `select`. -/
def woken {α : Type} (w : ScheduleWorld) (ready : Option α) (epoch : Nat) : Option (Option α) :=
  if epoch < w.notifications ∧ (ready.isNone ∨ w.oracle.notifiedFirst) then some none
  else ready.map some

/-- `ScheduleSet::cancel` sets the flag and wakes those that wait. -/
def cancel (w : ScheduleWorld) : ScheduleWorld :=
  { w with cancelled := true, notifications := w.notifications + 1 }

end ScheduleWorld

inductive ScheduleDisturbance where
  | cancel
  | clock (epochSeconds : Int)
  | replies (oracle : ScheduleOracle)

/-- What a loop remembers of a reply to `receive`. -/
def ScheduleLoop.hears (l : ScheduleLoop) : Option (Option EventMessage) → ScheduleLoop
  | some (some event) => { l with heard := l.heard ++ [event] }
  | _ => l

/-- The executor of the loops. -/
def scheduler : Handler scheduleSig where
  mode := ScheduleAct.mode
  perform
    | .spawned, σ => some ((), σ)
    | .isCancelled, σ => some (σ.world.cancelled, σ)
    | .notified, σ => some (σ.world.notifications, σ)
    | .epochSeconds, σ => some (σ.world.clock, σ)
    | .sleep _ epoch, σ =>
        (σ.world.woken (if σ.world.oracle.timerReady then some () else none) epoch).map fun r =>
          (r.isNone, σ)
    | .subscribe, σ => some (σ.world.oracle.subscribe, σ)
    | .receive epoch, σ =>
        (σ.world.woken σ.world.oracle.event epoch).map fun r =>
          (r, { σ with loc := σ.loc.hears r })
    | .trigger, σ =>
        some ((), { σ with
          loc := { σ.loc with firings := σ.loc.firings ++ [σ.loc.heard] }
          world := { σ.world with triggered := σ.world.triggered + 1 } })
    | .run _, σ => σ.world.oracle.execution.map fun result => (result, σ)
    | .outOfFuel, _ => none
  fires alarm _ := nomatch alarm
  Env := ScheduleDisturbance
  disturb
    | .cancel, w => w.cancel
    | .clock epochSeconds, w => { w with clock := epochSeconds }
    | .replies oracle, w => { w with oracle }

abbrev ScheduleFuture (α : Type) := Program scheduleSig α

def askSchedule (a : ScheduleAct) : ScheduleFuture a.Resp := @Program.request scheduleSig a

/-- The cron expressions, as their parser takes them: the next time after an epoch. -/
structure CronEngine where
  parse : String → Except WorkflowError (Int → Option Int)

namespace Schedule

def outOfFuel : ScheduleFuture Unit := do
  let never ← askSchedule .outOfFuel
  nomatch never

/-- Executes the workflow once, and counts that. Its result is only logged. -/
def fire (input : Value) : ScheduleFuture Unit := do
  askSchedule .trigger
  let _ ← askSchedule (.run input)
  return ()

/-- Sleeps, unless the set is cancelled meanwhile. -/
def sleepOrCancel (duration : Nat) : ScheduleFuture Bool := do
  if ← askSchedule .isCancelled then return false
  else
    let epoch ← askSchedule .notified
    if ← askSchedule (.sleep duration epoch) then return false
    else return !(← askSchedule .isCancelled)

/-- A round of a loop that sleeps before it fires. -/
def everyRound (interval : Nat) (goOn : ScheduleFuture Unit) : ScheduleFuture Unit := do
  if ← sleepOrCancel interval then goOn else return ()

/-- The loop of an `every` schedule, for so many firings. -/
def everyLoop (interval : Nat) : Nat → ScheduleFuture Unit
  | 0 => everyRound interval outOfFuel
  | fuel + 1 => everyRound interval do
      fire .null
      everyLoop interval fuel

/-- The loop of an `after` schedule, for so many firings. -/
def afterLoop (delay : Nat) : Nat → ScheduleFuture Unit
  | 0 => outOfFuel
  | fuel + 1 => do
      fire .null
      if ← sleepOrCancel delay then afterLoop delay fuel else return ()

/-- A round of a `cron` loop, up to its firing. -/
def cronRound (nextAfter : Int → Option Int) (goOn : ScheduleFuture Unit) : ScheduleFuture Unit := do
  let now ← askSchedule .epochSeconds
  match nextAfter now with
  | none => return ()
  | some next =>
      if ← sleepOrCancel ((next - now).toNat * 1000000000) then goOn else return ()

def cronLoop (nextAfter : Int → Option Int) : Nat → ScheduleFuture Unit
  | 0 => cronRound nextAfter outOfFuel
  | fuel + 1 => cronRound nextAfter do
      fire .null
      cronLoop nextAfter fuel

/-- What an `on` loop does when it is woken, before it goes on. -/
def onWoken (filters : List EventMessageLike) (goOn : ScheduleFuture Unit) :
    Option (Option EventMessage) → ScheduleFuture Unit
  | none => return ()
  | some none => return ()
  | some (some event) =>
      if eventMatches event filters then do
        fire (.array [eventEnvelope event])
        goOn
      else goOn

/-- The loop of an `on` schedule, for so many events. -/
def eventLoop (filters : List EventMessageLike) : Nat → ScheduleFuture Unit
  | 0 => outOfFuel
  | fuel + 1 => do
      let epoch ← askSchedule .notified
      let woken ← askSchedule (.receive epoch)
      onWoken filters (eventLoop filters fuel) woken

end Schedule

open Schedule

/-- Runs the loop of one trigger until it is cancelled. -/
def runSchedule (cron : CronEngine) (trigger : ScheduleTrigger) (fuel : Nat) : ScheduleFuture Unit := do
  askSchedule .spawned
  match trigger with
  | .every interval => everyLoop interval fuel
  | .after delay => afterLoop delay fuel
  | .cron expression =>
      match cron.parse expression with
      | .error _ => return ()
      | .ok nextAfter => cronLoop nextAfter fuel
  | .onEvents filters =>
      match ← askSchedule .subscribe with
      | .error _ => return ()
      | .ok () => eventLoop filters fuel

/-- The loops of a set of schedules. They all end when the set is joined. -/
def startSchedules (cron : CronEngine) (triggers : List ScheduleTrigger) (fuel : Nat) :
    ScheduleFuture Unit :=
  .par triggers.length triggers.length (fun _ => ScheduleLoop.initial)
    (fun i => runSchedule cron (triggers.get i) fuel) [] fun _ => .done ()

end OwsRuntime
