import Handicap.Library.Table

-- The metrics of a worker: where its VUs record them, and the batches in which they leave it. A
-- histogram is given by the values that were recorded in it.
namespace Engine

-- The bucket of all loop indices from the cap on.
def loopOverflow : ℕ := 2 ^ 32 - 1

inductive ErrorKind
  | connectRefused
  | connectionReset
  | connectTimeout
  | timeout
  | dns
  | tls
  | localPortExhaustion
  | other
  deriving DecidableEq

structure LoopStat where
  stepId     : String
  loopIndex  : ℕ
  count      : ℕ
  errorCount : ℕ
  deriving DecidableEq

structure LoopCount where
  count      : ℕ
  errorCount : ℕ
  deriving DecidableEq

structure BranchStat where
  stepId : String
  branch : String
  count  : ℕ
  deriving DecidableEq

structure ErrorKindStat where
  stepId : String
  kind   : ErrorKind
  count  : ℕ
  deriving DecidableEq

structure ActiveVuSample where
  tsSecond : ℤ
  desired  : ℕ
  actual   : ℕ
  deriving DecidableEq

structure GroupStat where
  stepId    : String
  branch    : String
  histogram : List ℕ
  count     : ℕ
  deriving DecidableEq

structure PhaseStat where
  stepId    : String
  phase     : String
  histogram : List ℕ
  count     : ℕ
  deriving DecidableEq

structure StepWindow where
  stepId       : String
  tsSecond     : ℤ
  count        : ℕ
  errorCount   : ℕ
  statusCounts : Table ℕ ℕ
  histogram    : List ℕ
  deriving DecidableEq

-- From one microsecond to one minute.
def clampLatency (latencyUs : ℕ) : ℕ :=
  max 1 (min latencyUs 60000000)

namespace StepWindow

def new (stepId : String) (tsSecond : ℤ) : StepWindow where
  stepId
  tsSecond
  count        := 0
  errorCount   := 0
  statusCounts := ∅
  histogram    := []

def record (w : StepWindow) (latencyUs status : ℕ) (isError : Bool) : StepWindow :=
  { w with
    histogram    := clampLatency latencyUs :: w.histogram
    count        := w.count + 1
    errorCount   := if isError then w.errorCount + 1 else w.errorCount
    statusCounts := w.statusCounts.update status 0 (· + 1) }

end StepWindow

structure Aggregator where
  windows         : Table (String × ℤ) StepWindow
  loopCounts      : Table (String × ℕ) LoopCount
  loopCap         : ℕ
  branchCounts    : Table (String × String) ℕ
  errorKindCounts : Table (String × ErrorKind) ℕ
  groupHists      : Table (String × String) (List ℕ × ℕ)
  phaseHists      : Table (String × String) (List ℕ × ℕ)
  activeVu        : Table ℤ (ℕ × ℕ)

namespace Aggregator

def new (loopBreakdownCap : ℕ) : Aggregator where
  windows         := ∅
  loopCounts      := ∅
  loopCap         := loopBreakdownCap
  branchCounts    := ∅
  errorKindCounts := ∅
  groupHists      := ∅
  phaseHists      := ∅
  activeVu        := ∅

variable (a : Aggregator)

def loopBucket (i : ℕ) : ℕ :=
  if i < a.loopCap then i else loopOverflow

-- A request that ends in the second `ts`.
def record (ts : ℤ) (stepId : String) (latencyUs status : ℕ) (isError : Bool)
    (loopIndex : Option ℕ) : Aggregator :=
  { a with
    windows    := a.windows.update (stepId, ts) (.new stepId ts) (·.record latencyUs status isError)
    loopCounts :=
      match loopIndex with
      | some i =>
        if 0 < a.loopCap then
          a.loopCounts.update (stepId, a.loopBucket i) ⟨0, 0⟩ fun c =>
            ⟨c.count + 1, if isError then c.errorCount + 1 else c.errorCount⟩
        else
          a.loopCounts
      | none => a.loopCounts }

def recordBranch (stepId branch : String) : Aggregator :=
  { a with branchCounts := a.branchCounts.update (stepId, branch) 0 (· + 1) }

def recordErrorKind (stepId : String) (kind : ErrorKind) : Aggregator :=
  { a with errorKindCounts := a.errorKindCounts.update (stepId, kind) 0 (· + 1) }

def recordGroup (stepId branch : String) (latencyUs : ℕ) : Aggregator :=
  { a with
    groupHists := a.groupHists.update (stepId, branch) ([], 0) fun h =>
      (clampLatency latencyUs :: h.1, h.2 + 1) }

def recordPhase (stepId phase : String) (latencyUs : ℕ) : Aggregator :=
  { a with
    phaseHists := a.phaseHists.update (stepId, phase) ([], 0) fun h =>
      (clampLatency latencyUs :: h.1, h.2 + 1) }

def recordActiveVu (tsSecond : ℤ) (desired actual : ℕ) : Aggregator :=
  { a with activeVu := a.activeVu.insert tsSecond (desired, actual) }

def drainLoopDeltas : List LoopStat × Aggregator :=
  (a.loopCounts.toList.map fun (k, c) => ⟨k.1, k.2, c.count, c.errorCount⟩,
    { a with loopCounts := ∅ })

def drainBranchDeltas : List BranchStat × Aggregator :=
  (a.branchCounts.toList.map fun (k, count) => ⟨k.1, k.2, count⟩, { a with branchCounts := ∅ })

def drainErrorKindDeltas : List ErrorKindStat × Aggregator :=
  (a.errorKindCounts.toList.map fun (k, count) => ⟨k.1, k.2, count⟩,
    { a with errorKindCounts := ∅ })

def drainGroupDeltas : List GroupStat × Aggregator :=
  (a.groupHists.toList.map fun (k, h) => ⟨k.1, k.2, h.1, h.2⟩, { a with groupHists := ∅ })

def drainPhaseDeltas : List PhaseStat × Aggregator :=
  (a.phaseHists.toList.map fun (k, h) => ⟨k.1, k.2, h.1, h.2⟩, { a with phaseHists := ∅ })

def activeVuSample (e : ℤ × ℕ × ℕ) : ActiveVuSample :=
  ⟨e.1, e.2.1, e.2.2⟩

def drainActiveVuCompleted (upToSecond : ℤ) : List ActiveVuSample × Aggregator :=
  let (drained, activeVu) := a.activeVu.extract (· < upToSecond)
  (drained.map activeVuSample, { a with activeVu })

def drainActiveVu : List ActiveVuSample × Aggregator :=
  (a.activeVu.toList.map activeVuSample, { a with activeVu := ∅ })

-- The windows of the seconds that are over.
def drainCompleted (upToSecond : ℤ) : List StepWindow × Aggregator :=
  let (drained, windows) := a.windows.extract (·.2 < upToSecond)
  (drained.map Prod.snd, { a with windows })

def drainAll : List StepWindow × Aggregator :=
  (a.windows.toList.map Prod.snd, { a with windows := ∅ })

end Aggregator

-- What a VU records in one call.
inductive Record
  | request (ts : ℤ) (stepId : String) (latencyUs status : ℕ) (isError : Bool)
      (loopIndex : Option ℕ)
  | branch (stepId branch : String)
  | errorKind (stepId : String) (kind : ErrorKind)
  | group (stepId branch : String) (latencyUs : ℕ)
  | phase (stepId phase : String) (latencyUs : ℕ)
  | activeVu (tsSecond : ℤ) (desired actual : ℕ)
  deriving DecidableEq

def Aggregator.apply (a : Aggregator) : Record → Aggregator
  | .request ts stepId latencyUs status isError loopIndex =>
    a.record ts stepId latencyUs status isError loopIndex
  | .branch stepId branch             => a.recordBranch stepId branch
  | .errorKind stepId kind            => a.recordErrorKind stepId kind
  | .group stepId branch latencyUs    => a.recordGroup stepId branch latencyUs
  | .phase stepId phase latencyUs     => a.recordPhase stepId phase latencyUs
  | .activeVu tsSecond desired actual => a.recordActiveVu tsSecond desired actual

structure MetricFlush where
  windows         : List StepWindow
  loopStats       : List LoopStat
  branchStats     : List BranchStat
  groupStats      : List GroupStat
  dropped         : ℕ
  phaseStats      : List PhaseStat
  activeVuSamples : List ActiveVuSample
  errorKindStats  : List ErrorKindStat
  deriving DecidableEq

end Engine
