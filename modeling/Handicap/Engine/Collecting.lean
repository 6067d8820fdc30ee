import Handicap.Engine.Aggregator
import Handicap.Library.Trace

-- The calls on an aggregator, in the order in which its lock is granted, under a clock that does
-- not go back.
namespace Engine

inductive AggregatorCall
  | record (r : Record)
  | drainCompleted (upToSecond : ℤ)
  | drainAll
  | drainLoopDeltas
  | drainBranchDeltas
  | drainErrorKindDeltas
  | drainGroupDeltas
  | drainPhaseDeltas
  | drainActiveVuCompleted (upToSecond : ℤ)
  | drainActiveVu
  deriving DecidableEq

-- A request is recorded in the second in which the lock is held. The second of a sample has been
-- read before.
def Record.stamp (now : ℤ) : Record → Record
  | .request _ stepId latencyUs status isError loopIndex =>
    .request now stepId latencyUs status isError loopIndex
  | r => r

-- A call, with the second in which the lock is held.
structure TimedCall where
  second : ℤ
  call   : AggregatorCall
  deriving DecidableEq

-- What a caller has read of the clock before it got the lock.
def AggregatorCall.readBefore : AggregatorCall → Option ℤ
  | .record (.activeVu ts _ _)           => some ts
  | .drainCompleted upToSecond           => some upToSecond
  | .drainActiveVuCompleted upToSecond   => some upToSecond
  | _                                    => none

def windowKey (w : StepWindow) : String × ℤ :=
  (w.stepId, w.tsSecond)

-- What has been recorded and what has been drained is kept, and which windows were drained by
-- drain_all.
structure Collecting where
  agg      : Aggregator
  clock    : ℤ
  recorded : List Record
  emitted  : MetricFlush
  final    : List (String × ℤ)

namespace Collecting

def new (loopBreakdownCap : ℕ) (clock : ℤ) : Collecting where
  agg      := .new loopBreakdownCap
  clock    := clock
  recorded := []
  emitted  := ⟨[], [], [], [], 0, [], [], []⟩
  final    := []

variable (s : Collecting)

def emitWindows (drained : List StepWindow × Aggregator) : Collecting :=
  { s with
    agg     := drained.2
    emitted := { s.emitted with windows := s.emitted.windows ++ drained.1 } }

def emitActiveVu (drained : List ActiveVuSample × Aggregator) : Collecting :=
  { s with
    agg     := drained.2
    emitted := { s.emitted with activeVuSamples := s.emitted.activeVuSamples ++ drained.1 } }

def exec (now : ℤ) : AggregatorCall → Collecting
  | .record r =>
    { s with agg := s.agg.apply (r.stamp now), recorded := s.recorded ++ [r.stamp now] }
  | .drainCompleted upToSecond => s.emitWindows (s.agg.drainCompleted upToSecond)
  | .drainAll                  =>
    { s.emitWindows s.agg.drainAll with final := s.final ++ s.agg.drainAll.1.map windowKey }
  | .drainLoopDeltas      =>
    let (loopStats, agg) := s.agg.drainLoopDeltas
    { s with agg, emitted := { s.emitted with loopStats := s.emitted.loopStats ++ loopStats } }
  | .drainBranchDeltas    =>
    let (branchStats, agg) := s.agg.drainBranchDeltas
    { s with
      agg, emitted := { s.emitted with branchStats := s.emitted.branchStats ++ branchStats } }
  | .drainErrorKindDeltas =>
    let (errorKindStats, agg) := s.agg.drainErrorKindDeltas
    { s with
      agg
      emitted := { s.emitted with errorKindStats := s.emitted.errorKindStats ++ errorKindStats } }
  | .drainGroupDeltas     =>
    let (groupStats, agg) := s.agg.drainGroupDeltas
    { s with agg, emitted := { s.emitted with groupStats := s.emitted.groupStats ++ groupStats } }
  | .drainPhaseDeltas     =>
    let (phaseStats, agg) := s.agg.drainPhaseDeltas
    { s with agg, emitted := { s.emitted with phaseStats := s.emitted.phaseStats ++ phaseStats } }
  | .drainActiveVuCompleted upToSecond =>
    s.emitActiveVu (s.agg.drainActiveVuCompleted upToSecond)
  | .drainActiveVu                     => s.emitActiveVu s.agg.drainActiveVu

-- The clock does not go back, and what was read of it before is not in the future. Other calls
-- cannot happen, and leave the state as it is.
def step (c : TimedCall) : Collecting :=
  if s.clock ≤ c.second ∧ c.call.readBefore.all (· ≤ c.second) then
    { s.exec c.second c.call with clock := c.second }
  else
    s

def run (loopBreakdownCap : ℕ) (clock : ℤ) (calls : List TimedCall) : Collecting :=
  Trace.run step (new loopBreakdownCap clock) calls

end Collecting

end Engine
