import Handicap.Library.Table
import Handicap.Library.Trace
import Handicap.Store.Runs
import Handicap.Store.Schedules
import Mathlib.Data.List.Sort

open Store

-- The scheduler, which takes what is due from the table in ticks, and the requests that change the
-- table meanwhile. An action is what happens between two await points of the scheduler, or a
-- statement of somebody else.
namespace Schedule

-- What is later than the grace is missed.
def missGraceMs : ℤ :=
  300000

-- A row of the table, with what its user has last set: the number of the setting among all
-- settings, and whether the schedule is to be enabled. A setting that fires once is used up by the
-- tick that has read it.
structure Entry where
  row     : ScheduleRow
  setting : ℕ
  wanted  : Bool
  used    : Bool
  deriving DecidableEq

-- Where the scheduler waits: for the run before, the scenario, the validation, the new run before
-- and after it is inserted, or for one of its two writes.
inductive Stage
  | overlap (lastRunId : String)
  | scenario
  | validate
  | spawn
  | spawning (runId : String)
  | mark (o : Outcome)
  | event (o : Outcome)
  deriving DecidableEq

-- The schedule in hand, and those that are due after it.
structure Tick where
  now   : ℤ
  entry : Entry
  stage : Stage
  rest  : List Entry
  deriving DecidableEq

structure Firing where
  entry : Entry
  runId : String
  deriving DecidableEq

-- The runs that schedules have started are kept.
structure Scheduling where
  entries  : List Entry
  runs     : Table String RunRow
  tick     : Option Tick
  events   : List ScheduleEventRow
  settings : ℕ
  firings  : List Firing

inductive Action
  | create (id : String) (t : Trigger) (enabled : Bool) (now : ℤ)
  | update (id : String) (t : Trigger) (enabled : Bool) (now : ℤ)
  | delete (id : String)
  | createRun (runId : String)
  | writeRun (runId : String) (w : Write) (now : ℤ)
  | deleteRun (runId : String)
  | startTick (now : ℤ)
  | overlap (read : Bool)
  | scenario (found : Except String Bool)
  | validate (result : Except String Unit)
  | insertRun (runId : String)
  | spawned (result : Except String Unit)
  | mark
  | event
  deriving DecidableEq

def fired (runId : String) : Outcome :=
  ⟨"fired", some runId, none⟩

def skippedOverlap : Outcome :=
  ⟨"skipped_overlap", none, some "이전 run이 아직 실행 중"⟩

def missed (lateMs : ℤ) : Outcome :=
  ⟨"missed", none, some s!"missed by {lateMs}ms (controller down?)"⟩

def failed (detail : String) : Outcome :=
  ⟨"error", none, some detail⟩

-- Where the scheduler goes first with a schedule. A schedule that fires once is never missed.
def enter (now : ℤ) (row : ScheduleRow) : Stage :=
  let scheduledAt := row.nextRunAt.getD now
  if ¬row.trigger.isOnce ∧ missGraceMs < now - scheduledAt then
    .mark (missed (now - scheduledAt))
  else
    match row.lastRunId with
    | some lastRunId => .overlap lastRunId
    | none           => .scenario

def Tick.begin (now : ℤ) : List Entry → Option Tick
  | []        => none
  | e :: rest => some ⟨now, e, enter now e.row, rest⟩

-- What the scheduler writes into a schedule that it has taken: one that fires once is used up.
def advance (cron : Cron) (t : Trigger) (now : ℤ) : Option ℤ × Bool :=
  if t.isOnce then (none, false) else (nextFireAfter cron t now, true)

-- What is written into the row does not depend on what it holds by then.
def Tick.write (cron : Cron) (t : Tick) (o : Outcome) (e : Entry) : Entry :=
  let (nextRunAt, enabled) := advance cron t.entry.row.trigger t.now
  let firedAt              := if o.runId.isSome then some t.now else none
  { e with
    row  := e.row.markOutcome nextRunAt enabled o firedAt
    used := e.setting = t.entry.setting && t.entry.row.trigger.isOnce }

-- In the order in which they are due.
def due (now : ℤ) (entries : List Entry) : List Entry :=
  (entries.filter (·.row.isDue now)).insertionSort fun a b =>
    a.row.nextRunAt.getD now ≤ b.row.nextRunAt.getD now

namespace Scheduling

def new : Scheduling :=
  ⟨[], ∅, none, [], 0, []⟩

variable (cron : Cron) (s : Scheduling)

-- The rows with an id.
def modify (id : String) (f : Entry → Entry) : Scheduling :=
  { s with entries := s.entries.map fun e => if e.row.id = id then f e else e }

def goto (t : Tick) (stage : Stage) : Scheduling :=
  { s with tick := some { t with stage } }

def isActive (runId : String) : Bool :=
  (s.runs.lookup runId).any (·.status.isActive)

-- A trigger is validated before a row is written. An id is used for one schedule only.
def create (id : String) (t : Trigger) (enabled : Bool) (now : ℤ) : Scheduling :=
  if (validateTrigger cron t now).isOk ∧ (∀ e ∈ s.entries, e.row.id ≠ id) ∧
      (∀ f ∈ s.firings, f.entry.row.id ≠ id) ∧
      (∀ k ∈ s.tick, k.entry.row.id ≠ id ∧ ∀ e ∈ k.rest, e.row.id ≠ id) then
    { s with
      entries  := s.entries ++
        [⟨.inserted id t enabled (nextFireAfter cron t now), s.settings, enabled, false⟩]
      settings := s.settings + 1 }
  else
    s

def update (id : String) (t : Trigger) (enabled : Bool) (now : ℤ) : Scheduling :=
  if (validateTrigger cron t now).isOk then
    { s.modify id fun e =>
        ⟨e.row.update t enabled (nextFireAfter cron t now), s.settings, enabled, false⟩ with
      settings := s.settings + 1 }
  else
    s

-- A run gets an id that no run has had.
def isNew (runId : String) : Prop :=
  runId ∉ s.runs ∧ ∀ f ∈ s.firings, f.runId ≠ runId

instance {runId : String} : Decidable (s.isNew runId) :=
  inferInstanceAs (Decidable (_ ∧ _))

def createRun (runId : String) : Scheduling :=
  if s.isNew runId then { s with runs := s.runs.insert runId .inserted } else s

def insertRun (t : Tick) (runId : String) : Scheduling :=
  if s.isNew runId then
    { s.goto t (.spawning runId) with
      runs    := s.runs.insert runId .inserted
      firings := s.firings ++ [⟨t.entry, runId⟩] }
  else
    s

def mark (t : Tick) (o : Outcome) : Scheduling :=
  (s.modify t.entry.row.id (t.write cron o)).goto t (.event o)

-- The scheduler goes on to the next schedule that was due.
def event (t : Tick) (o : Outcome) : Scheduling :=
  { s with
    events := s.events ++ [⟨t.entry.row.id, t.now, o.kind, o.runId, o.detail⟩]
    tick   := Tick.begin t.now t.rest }

-- What the scheduler does when it has got what it waited for.
def proceed (t : Tick) : Stage → Action → Scheduling
  | .overlap lastRunId, .overlap read =>
    if read ∧ s.isActive lastRunId then s.goto t (.mark skippedOverlap) else s.goto t .scenario
  | .scenario, .scenario (.error e)   => s.goto t (.mark (failed s!"시나리오 조회 실패: {e}"))
  | .scenario, .scenario (.ok false)  => s.goto t (.mark (failed "시나리오를 찾을 수 없습니다"))
  | .scenario, .scenario (.ok true)   => s.goto t .validate
  | .validate, .validate (.error e)   => s.goto t (.mark (failed s!"검증 실패: {e}"))
  | .validate, .validate (.ok _)      => s.goto t .spawn
  | .spawn, .insertRun runId          => s.insertRun t runId
  | .spawn, .spawned (.error e)       => s.goto t (.mark (failed s!"발사 실패: {e}"))
  | .spawning _, .spawned (.error e)  => s.goto t (.mark (failed s!"발사 실패: {e}"))
  | .spawning runId, .spawned (.ok _) => s.goto t (.mark (fired runId))
  | .mark o, .mark                    => s.mark cron t o
  | .event o, .event                  => s.event t o
  | _, _                              => s

def resume (a : Action) : Scheduling :=
  match s.tick with
  | some t => s.proceed cron t t.stage a
  | none   => s

-- An action that cannot happen leaves the state as it is.
def step : Action → Scheduling
  | .create id t enabled now  => s.create cron id t enabled now
  | .update id t enabled now  => s.update cron id t enabled now
  | .delete id                => { s with entries := s.entries.filter (·.row.id ≠ id) }
  | .createRun runId          => s.createRun runId
  | .writeRun runId w now     =>
    match s.runs.lookup runId with
    | some row => { s with runs := s.runs.insert runId (w.apply now row) }
    | none     => s
  | .deleteRun runId          =>
    if s.isActive runId then s else { s with runs := s.runs.erase runId }
  | .startTick now            =>
    match s.tick with
    | some _ => s
    | none   => { s with tick := Tick.begin now (due now s.entries) }
  | a                         => s.resume cron a

def run (actions : List Action) : Scheduling :=
  Trace.run (step cron) new actions

end Scheduling

end Schedule
