import Handicap.Report.Basic
import Handicap.Worker.Forward

open Worker Report

-- The metrics of one run in the database.
namespace Store

-- The statistics are kept as they are inserted: their tables add them up.
structure RunMetrics where
  rows  : List WindowWithHdr
  stats : List (String × MetricStats)

def RunMetrics.empty : RunMetrics :=
  ⟨[], []⟩

-- The primary key of a row of the run.
abbrev RowKey := ℤ × String × String

def rowKey (r : WindowWithHdr) : RowKey :=
  (r.tsSecond, r.stepId.text, r.workerId.text)

-- The row that is there already is kept.
def insertRow (rows : List WindowWithHdr) (r : WindowWithHdr) : List WindowWithHdr :=
  if rows.any (rowKey · = rowKey r) then rows else rows ++ [r]

def insertBatch (rows batch : List WindowWithHdr) : List WindowWithHdr :=
  batch.foldl insertRow rows

-- The text of the status counts of a window.
abbrev StatusText := List (String × ℕ) → String

def metricRow (statusText : StatusText) (workerId : String) (w : MetricWindow) : WindowWithHdr where
  tsSecond     := w.tsSecond
  stepId       := ⟨w.stepId⟩
  workerId     := ⟨workerId⟩
  count        := w.count
  errorCount   := w.errorCount
  statusCounts := statusText w.statusCounts
  hdrHistogram := w.hdrHistogram

def metricRows (statusText : StatusText) (batch : MetricBatch) : List WindowWithHdr :=
  batch.windows.map (metricRow statusText batch.workerId)

end Store
