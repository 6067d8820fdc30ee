import Handicap.Schedule.Trigger

open Schedule

-- The schedules in the database, without what the scheduler only hands on.
namespace Store

structure ScheduleRow where
  id          : String
  triggerKind : String
  cronExpr    : Option String
  runAt       : Option ℤ
  enabled     : Bool
  nextRunAt   : Option ℤ
  lastRunId   : Option String
  lastFiredAt : Option ℤ
  lastStatus  : Option String
  lastError   : Option String
  deriving DecidableEq

structure ScheduleEventRow where
  scheduleId : String
  atMs       : ℤ
  kind       : String
  runId      : Option String
  detail     : Option String
  deriving DecidableEq

def triggerColumns : Trigger → String × Option String × Option ℤ
  | .once runAt => ("once", none, some runAt)
  | .cron expr  => ("cron", some expr, none)

-- What became of a schedule that was due.
structure Outcome where
  kind   : String
  runId  : Option String
  detail : Option String
  deriving DecidableEq

namespace ScheduleRow

def inserted (id : String) (t : Trigger) (enabled : Bool) (nextRunAt : Option ℤ) : ScheduleRow where
  id
  triggerKind := (triggerColumns t).1
  cronExpr    := (triggerColumns t).2.1
  runAt       := (triggerColumns t).2.2
  enabled
  nextRunAt
  lastRunId   := none
  lastFiredAt := none
  lastStatus  := none
  lastError   := none

variable (row : ScheduleRow)

def trigger : Trigger :=
  if row.triggerKind = "once" then .once (row.runAt.getD 0) else .cron (row.cronExpr.getD "")

-- Whether a row is a candidate of the scheduler.
def isDue (nowMs : ℤ) : Bool :=
  row.enabled && row.nextRunAt.any (· ≤ nowMs)

-- The columns of the last run belong to the scheduler.
def update (t : Trigger) (enabled : Bool) (nextRunAt : Option ℤ) : ScheduleRow :=
  { row with
    triggerKind := (triggerColumns t).1
    cronExpr    := (triggerColumns t).2.1
    runAt       := (triggerColumns t).2.2
    enabled
    nextRunAt }

-- The last run and the time it was fired at are kept where there is no new one.
def markOutcome (nextRunAt : Option ℤ) (enabled : Bool) (o : Outcome) (lastFiredAt : Option ℤ) :
    ScheduleRow :=
  { row with
    nextRunAt
    enabled
    lastStatus  := some o.kind
    lastRunId   := o.runId <|> row.lastRunId
    lastFiredAt := lastFiredAt <|> row.lastFiredAt
    lastError   := o.detail }

end ScheduleRow

end Store
