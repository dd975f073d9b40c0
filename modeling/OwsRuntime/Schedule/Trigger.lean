import OwsRuntime.Compile
import OwsRuntime.Engine.Tasks

/-! Schedules: the compilation of what a workflow declares, and the test of an event. -/
namespace OwsRuntime

/-- What a workflow declares. Durations are in milliseconds. -/
structure WorkflowScheduleDefinition where
  every : Option Nat
  after : Option Nat
  cron : Option String
  on : Option EventConsumption
deriving Repr

/-- The type and the source of the events that a trigger takes. -/
structure EventMessageLike where
  type : String
  source : Option String
deriving DecidableEq, Repr

inductive ScheduleTrigger where
  | every (interval : Nat)
  | after (delay : Nat)
  | cron (expression : String)
  | onEvents (filters : List EventMessageLike)
deriving DecidableEq, Repr

def eventMessageLike (with_ : Map) : EventMessageLike :=
  { type := ((with_.lookup "type").bind Value.asStr).getD "*"
    source := (with_.lookup "source").bind Value.asStr }

/-- The filters that are kept of an event strategy. -/
def scheduleFilters (on : EventConsumption) : List EventMessageLike :=
  ((on.one.bind (·.with_)).map eventMessageLike).toList ++
    (on.any.getD []).filterMap fun f => f.with_.map eventMessageLike

def buildScheduleTrigger (s : WorkflowScheduleDefinition) : ScheduleTrigger :=
  match s.every, s.after, s.cron with
  | some every, _, _ => .every (every * 1000000)
  | none, some after, _ => .after (after * 1000000)
  | none, none, some cron => .cron cron
  | none, none, none => .onEvents ((s.on.map scheduleFilters).getD [])

/-- Whether an event matches some filter of a schedule. -/
def eventMatches (event : EventMessage) (filters : List EventMessageLike) : Bool :=
  filters.isEmpty || filters.any fun f =>
    (f.type == "*" || f.type == event.type) && f.source.all fun s => s == event.source

/-- The envelope of an event, as the input of a scheduled execution. -/
def eventEnvelope (event : EventMessage) : Value :=
  let fields : Map :=
    [("specversion", .string "1.0"), ("id", .string event.id), ("source", .string event.source),
      ("type", .string event.type)] ++
    (event.data.map fun v => ("data", v)).toList ++
    (event.time.map fun v => ("time", Value.string v)).toList ++
    (event.subject.map fun v => ("subject", Value.string v)).toList
  .object (Map.extend [] fields)

end OwsRuntime
