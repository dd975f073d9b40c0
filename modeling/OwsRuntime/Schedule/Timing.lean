import Mathlib.Logic.Relation
import OwsRuntime.Schedule.Loops

/-! Cron loops in time. Time goes on between the turns of a loop, and a timer does not go
off before its duration has elapsed. -/
namespace OwsRuntime

open Async

/-- What `epoch_seconds` reads at a time in nanoseconds. -/
def wholeSeconds (time : Int) : Int := time / 1000000000

/-- `next_after_epoch` of a parsed expression. -/
def CronEngine.next (cron : CronEngine) (expression : String) (epochSeconds : Int) : Option Int :=
  match cron.parse expression with
  | .ok nextAfter => nextAfter epochSeconds
  | .error _ => none

/-- An execution that a cron loop has fired: for which instant, and what the clock read. -/
structure CronFiring where
  instant : Int
  reading : Int
deriving DecidableEq, Repr

/-- A loop in time. Times are in nanoseconds. -/
structure TimedLoop where
  loop : Config scheduleSig Unit
  now : Int
  /-- When the loop took its last turn. A sleep starts then. -/
  since : Int
  firings : List CronFiring

namespace TimedLoop

/-- The timer of a sleep does not go off early. -/
def Punctual (t : TimedLoop) : Prop :=
  ∀ duration epoch next, t.loop.1 = .act (.sleep duration epoch) next →
    t.loop.2.world.oracle.timerReady = true → t.since + duration ≤ t.now

/-- What a turn has fired. Its instant has been computed in the turn before it. -/
def fired (cron : CronEngine) (expression : String) (t : TimedLoop) (d : Config scheduleSig Unit) :
    List CronFiring :=
  if t.loop.2.loc.firings.length < d.2.loc.firings.length then
    (cron.next expression (wholeSeconds t.since)).toList.map fun instant =>
      { instant, reading := wholeSeconds t.now }
  else []

/-- The loop of a trigger that has not yet been run. -/
def spawn (cron : CronEngine) (expression : String) (fuel : Nat) (start : Int)
    (oracle : ScheduleOracle) : TimedLoop :=
  { loop :=
      (runSchedule cron (.cron expression) fuel,
        { loc := ScheduleLoop.initial
          shared := ()
          world :=
            { cancelled := false, notifications := 0, triggered := 0, clock := wholeSeconds start
              oracle } })
    now := start
    since := start
    firings := [] }

/-- What the environment, the other loops of the set and the loop itself do next. -/
inductive Step (cron : CronEngine) (expression : String) : TimedLoop → TimedLoop → Prop where
  | elapse {t : TimedLoop} (later : Int) (hLater : t.now ≤ later) :
      Step cron expression t { t with
        loop := (t.loop.1, t.loop.2.mapWorld (scheduler.disturb (.clock (wholeSeconds later))))
        now := later }
  | cancel {t : TimedLoop} :
      Step cron expression t
        { t with loop := (t.loop.1, t.loop.2.mapWorld (scheduler.disturb .cancel)) }
  | replies {t : TimedLoop} (oracle : ScheduleOracle) :
      Step cron expression t
        { t with loop := (t.loop.1, t.loop.2.mapWorld (scheduler.disturb (.replies oracle))) }
  | others {t : TimedLoop} (triggered : Nat) :
      Step cron expression t
        { t with loop := (t.loop.1, t.loop.2.mapWorld fun w => { w with triggered }) }
  | turn {t : TimedLoop} {move : Move} {d : Config scheduleSig Unit} (punctual : t.Punctual)
      (hTurn : scheduler.step t.loop.1 move t.loop.2 = some d) :
      Step cron expression t
        { loop := d, now := t.now, since := t.now, firings := t.firings ++ t.fired cron expression d }

/-- A run of the loop, in any time. -/
def Reaches (cron : CronEngine) (expression : String) : TimedLoop → TimedLoop → Prop :=
  Relation.ReflTransGen (Step cron expression)

end TimedLoop

end OwsRuntime
