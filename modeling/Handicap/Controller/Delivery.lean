import Handicap.Coordinator.Calls
import Handicap.Store.Metrics

open Coordinator Store Worker

-- How the metrics of one run get from its workers into the database. Every worker of the run has
-- one stream, whose messages arrive in the order in which they were sent, and a handler that deals
-- with them one after another.
namespace Controller

-- What the handler of a stream does next. In the end it builds the report that the verdict is taken
-- from.
inductive Handler
  | idle
  | firstLoad (batch : MetricBatch)
  | insertBatch (batch : MetricBatch)
  | insertStats (batch : MetricBatch)
  | recordPhase (phase : ℤ)
  | buildReport
  deriving DecidableEq

-- Besides the run it is remembered whether record_phase has chosen to complete it, and what was in
-- the database when the report of the verdict was built.
structure Delivery where
  run        : RunWorkers
  executions : WorkerId → Execution
  inFlight   : WorkerId → List Upload
  broken     : WorkerId → Bool
  handlers   : WorkerId → Handler
  metrics    : RunMetrics
  completed  : Bool
  verdict    : Option RunMetrics

-- A connection may break at any time, and only the first messages that are in flight then arrive.
-- The loss of a worker and a hanging run may be noticed at any time, too.
inductive DeliveryEvent
  | register (worker : WorkerId) (tx : Tx)
  | worker (worker : WorkerId) (e : WorkerEvent)
  | disconnect (worker : WorkerId) (arriving : ℕ)
  | receive (worker : WorkerId)
  | handle (worker : WorkerId)
  | lost (worker : WorkerId)
  | hung

-- How the texts and the blobs in the database are written.
structure Writers where
  runId      : RunId
  serialize  : SerializeHistogram
  statusText : StatusText

namespace Delivery

def init (run : RunWorkers) : Delivery where
  run        := run
  executions := fun _ => .waiting
  inFlight   := fun _ => []
  broken     := fun _ => false
  handlers   := fun _ => .idle
  metrics    := .empty
  completed  := false
  verdict    := none

variable (wr : Writers) (s : Delivery)

def setHandler (worker : WorkerId) (h : Handler) : Delivery :=
  { s with handlers := Function.update s.handlers worker h }

def received : Upload → Handler
  | .metricBatch batch   => .firstLoad batch
  | .runStatus phase _ => .recordPhase phase.toInt

-- The assignment goes to workers that have registered.
def workerStep (worker : WorkerId) (e : WorkerEvent) : Delivery :=
  if e = .assigned ∧ (s.run.workers.lookup worker).isNone then
    s
  else
    let (x, sent) :=
      (s.executions worker).step wr.serialize wr.runId worker (!s.broken worker) e
    { s with
      executions := Function.update s.executions worker x
      inFlight   := Function.update s.inFlight worker (s.inFlight worker ++ sent) }

def handle (worker : WorkerId) : Delivery :=
  match s.handlers worker with
  | .idle => s
  | .firstLoad batch =>
    { s with run := { s.run with firstLoad := true } }.setHandler worker (.insertBatch batch)
  | .insertBatch batch =>
    let rows := Store.insertBatch s.metrics.rows (metricRows wr.statusText batch)
    { s with metrics := { s.metrics with rows } }.setHandler worker (.insertStats batch)
  | .insertStats batch =>
    let stats := s.metrics.stats ++ [(batch.workerId, batch.stats)]
    { s with metrics := { s.metrics with stats } }.setHandler worker .idle
  | .recordPhase phase =>
    let (decision, run) := s.run.recordPhase worker phase
    if decision = .completed then
      { s with run, completed := true }.setHandler worker .buildReport
    else
      { s with run }.setHandler worker .idle
  | .buildReport => { s with verdict := some s.metrics }.setHandler worker .idle

-- An event that cannot happen leaves the state as it is.
def step : DeliveryEvent → Delivery
  | .register worker tx         => { s with run := (s.run.register worker tx).2 }
  | .worker worker e            => s.workerStep wr worker e
  | .disconnect worker arriving =>
    { s with
      broken   := Function.update s.broken worker true
      inFlight := Function.update s.inFlight worker ((s.inFlight worker).take arriving) }
  | .receive worker =>
    match s.handlers worker, s.inFlight worker with
    | .idle, m :: inFlight =>
      { s with inFlight := Function.update s.inFlight worker inFlight }.setHandler worker (received m)
    | _, _ => s
  | .handle worker => s.handle wr worker
  | .lost worker   => { s with run := (s.run.workerDisconnected worker).2 }
  | .hung          => { s with run := s.run.failRunHung.2 }

def after (events : List DeliveryEvent) : Delivery :=
  Trace.run (step wr) s events

end Delivery

end Controller
