import Handicap.Engine.Aggregator
import Handicap.Worker.Load

open Engine

-- What a worker does with an assignment, as its controller sees it: it loads the datasets, runs the
-- engine while a task of its own forwards the metrics in batches, and reports how the run ended.
namespace Worker

structure MetricWindow where
  tsSecond     : ℤ
  stepId       : String
  count        : ℕ
  errorCount   : ℕ
  hdrHistogram : List UInt8
  statusCounts : List (String × ℕ)
  deriving DecidableEq

-- The latencies of a group or of a phase.
structure LatencyStat where
  stepId       : String
  name         : String
  hdrHistogram : List UInt8
  count        : ℕ
  deriving DecidableEq

-- Everything in a batch apart from the windows.
structure MetricStats where
  loopStats       : List LoopStat
  branchStats     : List BranchStat
  groupStats      : List LatencyStat
  phaseStats      : List LatencyStat
  activeVuSamples : List ActiveVuSample
  errorKindStats  : List ErrorKindStat
  dropped         : ℕ
  deriving DecidableEq

structure MetricBatch where
  runId    : String
  workerId : String
  windows  : List MetricWindow
  stats    : MetricStats
  deriving DecidableEq

inductive Upload
  | metricBatch (batch : MetricBatch)
  | runStatus (phase : Pb.Phase) (message : String)
  deriving DecidableEq

-- How histograms are written. A histogram that cannot be written is left out.
abbrev SerializeHistogram := List ℕ → Option (List UInt8)

section

variable (serialize : SerializeHistogram)

def metricWindow (w : StepWindow) : Option MetricWindow :=
  (serialize w.histogram).map fun hdr =>
    { tsSecond     := w.tsSecond
      stepId       := w.stepId
      count        := w.count
      errorCount   := w.errorCount
      hdrHistogram := hdr
      statusCounts := w.statusCounts.toList.map fun (k, v) => (toString k, v) }

def latencyStat (stepId name : String) (histogram : List ℕ) (count : ℕ) : Option LatencyStat :=
  (serialize histogram).map fun hdr => ⟨stepId, name, hdr, count⟩

-- A batch without any metrics is not sent.
def metricBatch (runId workerId : String) (flush : MetricFlush) : Option MetricBatch :=
  let windows    := flush.windows.filterMap (metricWindow serialize)
  let groupStats := flush.groupStats.filterMap fun g =>
    latencyStat serialize g.stepId g.branch g.histogram g.count
  let phaseStats := flush.phaseStats.filterMap fun p =>
    latencyStat serialize p.stepId p.phase p.histogram p.count
  if windows.isEmpty && flush.loopStats.isEmpty && flush.branchStats.isEmpty &&
      groupStats.isEmpty && phaseStats.isEmpty && flush.activeVuSamples.isEmpty &&
      flush.errorKindStats.isEmpty && flush.dropped == 0 then
    none
  else
    some
      { runId, workerId, windows
        stats :=
          { loopStats       := flush.loopStats
            branchStats     := flush.branchStats
            groupStats, phaseStats
            activeVuSamples := flush.activeVuSamples
            errorKindStats  := flush.errorKindStats
            dropped         := flush.dropped } }

end

inductive EngineResult
  | ok
  | aborted
  | failed (e : String)
  deriving DecidableEq

def phaseForResult : EngineResult → Pb.Phase × String
  | .ok       => (.completed, "")
  | .aborted  => (.aborted, "")
  | .failed e => (.failed, e)

-- The report of a worker that did not get its datasets.
def phaseForLoading : WorkerError → Pb.Phase × String
  | .cancelled                      => (.aborted, "")
  | .datasetIncomplete got expected =>
    (.failed, s!"dataset stream ended early ({got}/{expected} rows)")

inductive Stage
  | waiting
  | loading
  | running
  | reported
  deriving DecidableEq

inductive Forwarder
  | receiving
  | sending (batch : MetricBatch)
  | ended
  deriving DecidableEq

-- The engine and its flusher send into a channel that the forwarder receives from. The channel is
-- closed when they have dropped their senders. The batches that were produced are kept.
structure Execution where
  stage     : Stage
  flushes   : List MetricFlush
  closed    : Bool
  result    : Option EngineResult
  forwarder : Forwarder
  produced  : List MetricBatch
  deriving DecidableEq

inductive WorkerEvent
  | assigned
  | loaded
  | loadFailed (e : WorkerError)
  | flush (f : MetricFlush)
  | close
  | finish (result : EngineResult)
  | forward
  | report
  deriving DecidableEq

def flushCapacity : ℕ :=
  32

namespace Execution

def waiting : Execution where
  stage     := .waiting
  flushes   := []
  closed    := false
  result    := none
  forwarder := .receiving
  produced  := []

-- What is sent reaches the stream only if it is still connected.
def upload (connected : Bool) (m : Upload) : List Upload :=
  if connected then [m] else []

-- A step of the forwarder. It gives up where the stream is closed.
def forward (serialize : SerializeHistogram) (runId workerId : String) (connected : Bool)
    (x : Execution) : Execution × List Upload :=
  match x.forwarder with
  | .receiving =>
    match x.flushes with
    | []           => if x.closed then ({ x with forwarder := .ended }, []) else (x, [])
    | f :: flushes =>
      match metricBatch serialize runId workerId f with
      | none       => ({ x with flushes }, [])
      | some batch =>
        ({ x with flushes, forwarder := .sending batch, produced := x.produced ++ [batch] }, [])
  | .sending batch =>
    ({ x with forwarder := if connected then .receiving else .ended },
      upload connected (.metricBatch batch))
  | .ended => (x, [])

-- The status is sent once the engine has returned and the forwarder has ended.
def report (connected : Bool) (x : Execution) : Execution × List Upload :=
  match x.forwarder, x.result with
  | .ended, some result =>
    ({ x with stage := .reported },
      upload connected (.runStatus (phaseForResult result).1 (phaseForResult result).2))
  | _, _ => (x, [])

-- An event that cannot happen leaves the execution as it is.
def step (serialize : SerializeHistogram) (runId workerId : String) (connected : Bool)
    (x : Execution) : WorkerEvent → Execution × List Upload
  | .assigned     => if x.stage = .waiting then ({ x with stage := .loading }, []) else (x, [])
  | .loaded       => if x.stage = .loading then ({ x with stage := .running }, []) else (x, [])
  | .loadFailed e =>
    if x.stage = .loading then
      ({ x with stage := .reported },
        upload connected (.runStatus (phaseForLoading e).1 (phaseForLoading e).2))
    else
      (x, [])
  | .flush f =>
    if x.stage = .running ∧ ¬x.closed ∧ x.flushes.length < flushCapacity then
      ({ x with flushes := x.flushes ++ [f] }, [])
    else
      (x, [])
  | .close         => if x.stage = .running then ({ x with closed := true }, []) else (x, [])
  | .finish result =>
    if x.stage = .running ∧ x.result = none then
      ({ x with result := some result }, [])
    else
      (x, [])
  | .forward =>
    if x.stage = .running then x.forward serialize runId workerId connected else (x, [])
  | .report => if x.stage = .running then x.report connected else (x, [])

end Execution

end Worker
