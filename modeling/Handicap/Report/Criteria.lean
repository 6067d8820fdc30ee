import Handicap.Report.Basic
import Handicap.Store.Profile
import Mathlib.Algebra.Order.Field.Basic
import Mathlib.Algebra.Order.Ring.Rat

-- The criteria of a run, and how its report is judged by them.
namespace Report

open Store (F64 U32)

-- The criteria with those that have no range to be checked.
structure Criteria extends Store.Criteria where
  maxP50Ms         : Option ℕ
  maxP95Ms         : Option ℕ
  maxP99Ms         : Option ℕ
  max4xxCount      : Option ℕ
  max5xxCount      : Option ℕ
  rpsWarmupSeconds : Option U32

structure CriterionResult where
  metric    : String
  direction : String
  threshold : F64
  actual    : ℚ
  passed    : Bool
  target    : Option String

structure Verdict where
  passed   : Bool
  criteria : List CriterionResult

-- Whether a number is at least a threshold. Nothing is at least one that is not a number.
def atLeast (actual : ℚ) : F64 → Bool
  | .finite t          => t ≤ actual
  | .infinite negative => negative
  | .nan               => false

def atMost (actual : ℚ) : F64 → Bool
  | .finite t          => actual ≤ t
  | .infinite negative => !negative
  | .nan               => false

-- The responses whose status codes begin with a digit.
def statusClassCount (dist : StatusCounts) (first : Char) : ℕ :=
  ((dist.toList.filter fun e => e.1.text.toList.head? = some first).map (·.2)).sum

-- The responses, without the requests that have none.
def httpResponseTotal (dist : StatusCounts) : ℕ :=
  ((dist.toList.filter fun e => e.1.text.toList.head?.any fun c => '1' ≤ c && c ≤ '5').map
    (·.2)).sum

def rate (part total : ℕ) : ℚ :=
  if total = 0 then 0 else part / total

-- The requests of every second that has a window.
def bySecond (windows : List ReportWindow) : SortedTable ℤ ℕ :=
  windows.foldl (fun t w => t.update w.tsSecond 0 (· + w.count)) ∅

-- The least number of requests in a second between the first and the last one, after the warmup.
def minWindowRps (windows : List ReportWindow) (warmupSeconds : U32) : Option ℚ := do
  let rows  := (bySecond windows).toList
  let first ← (rows.map (·.1)).head?
  let last  ← (rows.map (·.1)).getLast?
  let lo    := first + warmupSeconds.val
  let rows  := rows.filter fun e => first < e.1 && e.1 < last && lo ≤ e.1
  (rows.map fun e => (e.2 : ℚ)).min?

def maxCriterion (metric : String) (threshold : F64) (actual : ℚ) : CriterionResult where
  metric
  direction := "max"
  threshold
  actual
  passed := atMost actual threshold
  target := none

def minCriterion (metric : String) (threshold : F64) (actual : ℚ) : CriterionResult where
  metric
  direction := "min"
  threshold
  actual
  passed := atLeast actual threshold
  target := none

-- A criterion that counts has a whole threshold.
def pushMax (metric : String) (threshold : Option ℕ) (actual : ℕ) : List CriterionResult :=
  (threshold.map fun t => maxCriterion metric (.finite t) actual).toList

def pushRate (metric : String) (threshold : Option F64) (actual : ℚ) : List CriterionResult :=
  (threshold.map (maxCriterion metric · actual)).toList

-- There is no result if there is no second to look at.
def pushWindowRps (c : Criteria) (windows : List ReportWindow) : List CriterionResult :=
  (c.minWindowRps.bind fun t =>
    (minWindowRps windows (c.rpsWarmupSeconds.getD 0)).map (minCriterion "min_window_rps" t)).toList

section

variable {B : Type*}

def stepActual (metric : String) (step : ReportStep B) : Option ℚ :=
  match metric with
  | "p50_ms"     => some step.percentiles.p50Ms
  | "p95_ms"     => some step.percentiles.p95Ms
  | "p99_ms"     => some step.percentiles.p99Ms
  | "error_rate" => some (step.errorCount / step.count)
  | "4xx_rate"   =>
    some (rate (statusClassCount step.statusCounts '4') (httpResponseTotal step.statusCounts))
  | "5xx_rate"   =>
    some (rate (statusClassCount step.statusCounts '5') (httpResponseTotal step.statusCounts))
  | "4xx_count"  => some (statusClassCount step.statusCounts '4')
  | "5xx_count"  => some (statusClassCount step.statusCounts '5')
  | _            => none

-- A step that is not there or has not run is not judged.
def stepCriterion (steps : List (ReportStep B)) (sc : Store.Criterion) : Option CriterionResult :=
  (steps.find? fun s => s.stepId.text = sc.target).bind fun step =>
    (if step.count = 0 then none else stepActual sc.metric step).map fun actual =>
      { metric    := sc.metric
        direction := sc.op
        threshold := sc.threshold
        actual
        passed    := if sc.op = "min" then atLeast actual sc.threshold else atMost actual sc.threshold
        target    := some sc.target }

def evaluateCriteria (c : Criteria) (s : ReportSummary) (rps : ℚ) (statusDist : StatusCounts)
    (windows : List ReportWindow) (steps : List (ReportStep B)) : Verdict :=
  let httpTotal := httpResponseTotal statusDist
  let criteria  :=
    pushMax "p50_ms" c.maxP50Ms s.percentiles.p50Ms ++
    pushMax "p95_ms" c.maxP95Ms s.percentiles.p95Ms ++
    pushMax "p99_ms" c.maxP99Ms s.percentiles.p99Ms ++
    pushRate "error_rate" c.maxErrorRate (rate s.errors s.count) ++
    pushRate "4xx_rate" c.max4xxRate (rate (statusClassCount statusDist '4') httpTotal) ++
    pushRate "5xx_rate" c.max5xxRate (rate (statusClassCount statusDist '5') httpTotal) ++
    pushMax "4xx_count" c.max4xxCount (statusClassCount statusDist '4') ++
    pushMax "5xx_count" c.max5xxCount (statusClassCount statusDist '5') ++
    (c.minRps.map (minCriterion "rps" · rps)).toList ++
    pushWindowRps c windows ++
    c.stepCriteria.filterMap (stepCriterion steps)
  ⟨criteria.all (·.passed), criteria⟩

end

section

open Store (Stage)

-- The arrivals that an open-loop run has scheduled within a time, over an ordered field.
variable {K : Type*} [Field K] [LinearOrder K]

-- The arrivals of the stages that are left: the first of them starts at `segStart`, with the rate
-- `prev`, and `total` arrivals are scheduled before it.
def scheduledFrom (durationActual total segStart prev : K) : List Stage → K
  | [] =>
    if segStart < durationActual then total + prev * (durationActual - segStart) else total
  | st :: stages =>
    let span : K   := st.durationSeconds.val
    let target : K := st.target.val
    let segEnd     := segStart + span
    if segEnd ≤ durationActual then
      scheduledFrom durationActual (total + (prev + target) / (2 : ℕ) * span) segEnd target stages
    else if segStart < durationActual ∧ 0 < span then
      let t       := durationActual - segStart
      let rateAtT := prev + (target - prev) * (t / span)
      total + (prev + rateAtT) / (2 : ℕ) * t
    else
      total

-- A profile that is not open-loop has neither a rate nor stages.
def scheduledArrivals (targetRps : Option U32) (stages : Option (List Stage)) (durationActual : K) :
    Option K :=
  match stages.filter (!·.isEmpty) with
  | some stages => some (scheduledFrom durationActual 0 0 0 stages)
  | none        => targetRps.map fun t => t.val * durationActual

end

end Report
