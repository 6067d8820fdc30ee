import Handicap.Library.SortedTable
import Mathlib.Data.Char
import Mathlib.Data.List.Lex
import Mathlib.Data.Prod.Lex

-- The report of a run: the parts of it that are built from the metric rows.
namespace Report

-- The names of steps, workers and status codes, in the order of strings.
structure Name where
  text : String

namespace Name

theorem text_injective : Function.Injective fun n : Name => n.text.toList := by
  intro a b h
  cases a
  cases b
  exact congrArg mk (String.toList_injective h)

instance : LinearOrder Name :=
  LinearOrder.lift' _ text_injective

def isEmpty (n : Name) : Bool :=
  n.text.isEmpty

end Name

-- The counts are of events, and stay below 2 ^ 63 when all rows are taken together, where the casts
-- to 64 bits and the sums of the source are exact.
structure WindowWithHdr where
  tsSecond     : ℤ
  stepId       : Name
  workerId     : Name
  count        : ℕ
  errorCount   : ℕ
  statusCounts : String
  hdrHistogram : List UInt8

structure Percentiles where
  p50Ms : ℕ
  p95Ms : ℕ
  p99Ms : ℕ
  deriving DecidableEq

def Percentiles.empty : Percentiles :=
  ⟨0, 0, 0⟩

abbrev StatusCounts := SortedTable Name ℕ

-- How texts and blobs of the database are decoded and how histograms are read. A bad text of status
-- counts counts nothing, and a bad or empty blob has no histogram.
structure Codecs (H D : Type*) where
  parseStatusCounts : String → StatusCounts
  decodeHdr         : List UInt8 → Option H
  percentilesOf     : H → Percentiles
  meanMs            : H → ℕ
  isEmpty           : H → Bool
  distribution      : H → D

structure WindowAcc (H : Type*) where
  count      : ℕ
  errorCount : ℕ
  status     : StatusCounts
  hist       : Option H

structure WorkerAcc (H : Type*) where
  count  : ℕ
  errors : ℕ
  hist   : Option H

structure StepAcc where
  count      : ℕ
  errorCount : ℕ
  status     : StatusCounts

-- Everything that the loop over the rows accumulates.
structure Acc (H : Type*) where
  windows      : SortedTable (ℤ ×ₗ Name) (WindowAcc H)
  overall      : H
  perStep      : SortedTable Name H
  perStepCount : SortedTable Name StepAcc
  statusDist   : StatusCounts
  totalCount   : ℕ
  totalErrors  : ℕ
  workers      : SortedTable Name (WorkerAcc H)

structure ReportWindow where
  tsSecond     : ℤ
  stepId       : Name
  count        : ℕ
  errorCount   : ℕ
  statusCounts : StatusCounts
  percentiles  : Percentiles

structure ReportStep (B : Type*) where
  stepId       : Name
  count        : ℕ
  errorCount   : ℕ
  statusCounts : StatusCounts
  percentiles  : Percentiles
  breakdown    : B

structure ReportSummary where
  count       : ℕ
  errors      : ℕ
  meanMs      : ℕ
  percentiles : Percentiles

structure WorkerBreakdown where
  workerId    : Name
  count       : ℕ
  errors      : ℕ
  percentiles : Percentiles

structure ReportJson (D B R : Type*) where
  summary            : ReportSummary
  windows            : List ReportWindow
  steps              : List (ReportStep B)
  statusDistribution : StatusCounts
  latency            : Option D
  workerBreakdown    : List WorkerBreakdown
  derived            : R

section

def addStatus (into «from» : StatusCounts) : StatusCounts :=
  «from».toList.foldl (fun t e => t.update e.1 0 (· + e.2)) into

variable {H D B R : Type*} [AddCommMonoid H] (codecs : Codecs H D)

-- A histogram is merged into one that is fresh if it is the first one.
def mergeInto (hist : Option H) (h : H) : Option H :=
  some (hist.getD 0 + h)

-- The workers are told apart only if there are several.
def multiWorker (rows : List WindowWithHdr) : Bool :=
  2 ≤ ((rows.map (·.workerId)).filter fun w => !w.isEmpty).dedup.length

def WindowAcc.add (r : WindowWithHdr) (w : WindowAcc H) : WindowAcc H where
  count      := w.count + r.count
  errorCount := w.errorCount + r.errorCount
  status     := addStatus w.status (codecs.parseStatusCounts r.statusCounts)
  hist       := match codecs.decodeHdr r.hdrHistogram with
    | none   => w.hist
    | some h => mergeInto w.hist h

def StepAcc.add (r : WindowWithHdr) (s : StepAcc) : StepAcc where
  count      := s.count + r.count
  errorCount := s.errorCount + r.errorCount
  status     := addStatus s.status (codecs.parseStatusCounts r.statusCounts)

def WorkerAcc.add (r : WindowWithHdr) (w : WorkerAcc H) : WorkerAcc H where
  count  := w.count + r.count
  errors := w.errors + r.errorCount
  hist   := match codecs.decodeHdr r.hdrHistogram with
    | none   => w.hist
    | some h => mergeInto w.hist h

def Acc.empty : Acc H where
  windows      := ∅
  overall      := 0
  perStep      := ∅
  perStepCount := ∅
  statusDist   := ∅
  totalCount   := 0
  totalErrors  := 0
  workers      := ∅

def WindowWithHdr.key (r : WindowWithHdr) : ℤ ×ₗ Name :=
  toLex (r.tsSecond, r.stepId)

def Acc.addRow (multi : Bool) (acc : Acc H) (r : WindowWithHdr) : Acc H :=
  let hist := codecs.decodeHdr r.hdrHistogram
  { windows      := acc.windows.update r.key ⟨0, 0, ∅, none⟩ (WindowAcc.add codecs r)
    overall      := hist.elim acc.overall (acc.overall + ·)
    perStep      := hist.elim acc.perStep fun h => acc.perStep.update r.stepId 0 (· + h)
    perStepCount := acc.perStepCount.update r.stepId ⟨0, 0, ∅⟩ (StepAcc.add codecs r)
    statusDist   := addStatus acc.statusDist (codecs.parseStatusCounts r.statusCounts)
    totalCount   := acc.totalCount + r.count
    totalErrors  := acc.totalErrors + r.errorCount
    workers      :=
      if multi && !r.workerId.isEmpty then
        acc.workers.update r.workerId ⟨0, 0, none⟩ (WorkerAcc.add codecs r)
      else
        acc.workers }

def accumulate (rows : List WindowWithHdr) : Acc H :=
  rows.foldl (Acc.addRow codecs (multiWorker rows)) Acc.empty

def percentilesOrEmpty (hist : Option H) : Percentiles :=
  hist.elim Percentiles.empty codecs.percentilesOf

-- The breakdown of a step comes from other tables than the rows. What is derived of a report is the
-- verdict, the insights and everything else that is computed from the parts before it.
def buildReport (breakdown : Name → B)
    (derive : ReportSummary → List ReportWindow → List (ReportStep B) → StatusCounts → R)
    (rows : List WindowWithHdr) : ReportJson D B R :=
  let acc := accumulate codecs rows
  let windows := acc.windows.toList.map fun (k, w) =>
    ⟨(ofLex k).1, (ofLex k).2, w.count, w.errorCount, w.status, percentilesOrEmpty codecs w.hist⟩
  let steps := acc.perStepCount.toList.map fun (stepId, s) =>
    ⟨stepId, s.count, s.errorCount, s.status,
      percentilesOrEmpty codecs (acc.perStep.lookup stepId), breakdown stepId⟩
  let summary := ⟨acc.totalCount, acc.totalErrors, codecs.meanMs acc.overall,
    codecs.percentilesOf acc.overall⟩
  { summary, windows, steps
    statusDistribution := acc.statusDist
    latency            :=
      if codecs.isEmpty acc.overall then none else some (codecs.distribution acc.overall)
    workerBreakdown    := acc.workers.toList.map fun (workerId, w) =>
      ⟨workerId, w.count, w.errors, percentilesOrEmpty codecs w.hist⟩
    derived            := derive summary windows steps acc.statusDist }

end

end Report
