import Handicap.Library.Guard
import Handicap.Shard.Basic
import Handicap.Store.Profile
import Mathlib.Data.List.Dedup

open Guard Store

-- The authoritative check of a run configuration.
namespace Api

inductive ApiError
  | notFound
  | conflict (message : String)
  | conflictJson (achievableVus requestedVus : ℕ)
  | badRequest (message : String)
  | internal (message : String)
  | db
  deriving DecidableEq

structure Settings where
  workerCapacityVus      : ℕ
  maxOpenLoopWorkerCount : ℕ
  maxLoopBreakdownCap    : ℕ
  maxDataBindings        : ℕ
  datasetMaxRows         : ℕ

structure DatasetMeta where
  columns  : List String
  rowCount : ℕ

structure AppState where
  settings : Settings
  getMeta  : String → Option DatasetMeta

abbrev Check := Except ApiError Unit

def refuseWith (bad : Prop) [Decidable bad] (message : String) : Check :=
  refuse bad (.badRequest message)

def fanoutWorkerCount (profile : Profile) (capacity : ℕ) : ℕ :=
  if profile.isVuCurve then
    Shard.workerCount profile.vuCurveMax capacity
  else if profile.isOpenLoop then
    profile.workerCount.getD 1
  else
    Shard.workerCount profile.vus capacity

section Criteria

def stepMetrics : List String :=
  ["p50_ms", "p95_ms", "p99_ms", "error_rate", "4xx_rate", "5xx_rate", "4xx_count", "5xx_count"]

def rateMetrics : List String :=
  ["error_rate", "4xx_rate", "5xx_rate"]

def checkRate (name : String) (rate : Option F64) : Check :=
  refuseWith (rate.any (!·.inUnit)) s!"criteria.{name} must be between 0.0 and 1.0"

def checkThroughput (name : String) (rps : Option F64) : Check :=
  refuseWith (rps.any fun r => !r.isFinite || r.isNegative) s!"criteria.{name} must be >= 0"

def checkCriterion (sc : Criterion) (i : ℕ) : Check := do
  refuseWith (sc.metric ∉ stepMetrics)
    s!"criteria.step_criteria[{i}].metric '{sc.metric}'은 지원하지 않습니다"
  refuseWith (sc.op ≠ "max" ∧ sc.op ≠ "min")
    s!"criteria.step_criteria[{i}].op은 'max' 또는 'min'이어야 합니다"
  refuseWith (!sc.threshold.isFinite)
    s!"criteria.step_criteria[{i}].threshold가 유효하지 않습니다"
  if sc.metric ∈ rateMetrics then
    refuseWith (!sc.threshold.inUnit)
      s!"criteria.step_criteria[{i}].threshold는 0.0..=1.0이어야 합니다 (rate)"
  else
    refuseWith sc.threshold.isNegative
      s!"criteria.step_criteria[{i}].threshold는 0 이상이어야 합니다"
  refuseWith (sc.target.toList.all isWhiteSpace)
    s!"criteria.step_criteria[{i}].target(step_id)가 비어 있습니다"

def validateCriteria (c : Criteria) : Check := do
  checkRate "max_error_rate" c.maxErrorRate
  checkThroughput "min_rps" c.minRps
  checkRate "max_4xx_rate" c.max4xxRate
  checkRate "max_5xx_rate" c.max5xxRate
  checkThroughput "min_window_rps" c.minWindowRps
  c.stepCriteria.zipIdx.forM fun (sc, i) => checkCriterion sc i

end Criteria

section Load

variable (settings : Settings) (profile : Profile)

def checkRampDown : Check := do
  refuseWith (¬profile.isVuCurve ∧ profile.rampDown.isSome)
    "ramp_down은 vu_stages(VU 곡선) 전용입니다"
  if profile.gracefulRampDownSeconds.isSome then
    refuseWith (¬profile.isVuCurve)
      "graceful_ramp_down_seconds는 vu_stages(VU 곡선) 전용입니다"
    refuseWith (profile.rampDown = some .immediate)
      "graceful_ramp_down_seconds는 graceful ramp-down에서만 유효합니다"
    refuseWith (profile.gracefulRampDownSeconds = some 0)
      "graceful_ramp_down_seconds는 1 이상이어야 합니다"

def checkWorkerCount : Check :=
  match profile.workerCount with
  | none => pure ()
  | some w => do
    let cap := settings.maxOpenLoopWorkerCount
    refuseWith (w = 0 ∨ cap < w.val) s!"worker_count must be between 1 and {cap}"
    refuseWith (1 < w ∧ ¬profile.isOpenLoop)
      "worker_count는 open-loop(target_rps/stages) 전용입니다 — closed-loop은 vus로 워커 수가 정해집니다"

def checkVuCurve : Check := do
  refuseWith profile.targetRps.isSome
    "vu_stages와 target_rps는 함께 쓸 수 없습니다 (VU 곡선 vs RPS 지정 충돌)"
  refuseWith profile.maxInFlight.isSome
    "vu_stages에선 max_in_flight를 쓸 수 없습니다 (open-loop 전용)"
  refuseWith profile.hasStages
    "vu_stages와 stages(RPS 곡선)는 함께 쓸 수 없습니다"
  refuseWith (0 < profile.rampUpSeconds)
    "vu_stages 사용 시 ramp_up_seconds를 비워야 합니다 (곡선이 ramp의 일반화)"
  refuseWith (0 < profile.durationSeconds)
    "vu_stages 사용 시 duration_seconds를 비워야 합니다 (총 길이 = stage 합)"
  refuseWith (0 < profile.vus)
    "vu_stages 사용 시 vus를 비워야 합니다 (곡선이 VU 수를 정의)"
  let stages := profile.vuStages.getD []
  stages.forM fun s => refuseWith (s.durationSeconds = 0) "stage duration_seconds must be >= 1"
  refuseWith (¬stages.any (0 < ·.target)) "최소 한 stage의 target은 0보다 커야 합니다"

def checkMaxInFlight : Check :=
  match profile.maxInFlight with
  | none => .error <| .badRequest <|
    if profile.hasStages then
      "stages(레이트 곡선)은 max_in_flight가 필요합니다 (closed-loop stages는 아직 미지원)"
    else
      "open-loop(target_rps)은 max_in_flight가 필요합니다"
  | some m => refuseWith (m = 0 ∨ 10000 < m) "max_in_flight must be between 1 and 10000"

def checkRateCurve (stages : List Stage) : Check := do
  refuseWith profile.targetRps.isSome
    "stages와 target_rps는 함께 쓸 수 없습니다 (레이트 지정 방식 충돌)"
  refuseWith (0 < profile.durationSeconds)
    "stages 사용 시 duration_seconds를 비워야 합니다 (총 길이 = stage 합)"
  stages.forM fun s => do
    refuseWith (1000000 < s.target) "stage target must be between 0 and 1000000"
    refuseWith (s.durationSeconds = 0) "stage duration_seconds must be >= 1"
  refuseWith (¬stages.any (0 < ·.target)) "최소 한 stage의 target은 0보다 커야 합니다"

-- Without stages an open-loop profile has a `targetRps`, so the default is never read.
def checkFixedRate : Check := do
  let rps := profile.targetRps.getD 0
  refuseWith (rps = 0 ∨ 1000000 < rps) "target_rps must be between 1 and 1000000"
  refuseWith (profile.durationSeconds = 0) "duration_seconds must be > 0"

def checkRates : Check :=
  if profile.hasStages then
    checkRateCurve profile (profile.stages.getD [])
  else
    checkFixedRate profile

def checkFanOut : Check :=
  match profile.workerCount with
  | none => pure ()
  | some w =>
    if 1 < w then do
      refuseWith (profile.maxInFlight.getD 0 < w)
        s!"worker_count={w}이면 max_in_flight >= {w} 필요 (워커당 ≥1 슬롯)"
      if ¬profile.hasStages then
        refuseWith (profile.targetRps.getD 0 < w)
          s!"worker_count={w}이면 target_rps >= {w} 필요 (워커당 ≥1 rps)"
    else
      pure ()

def checkOpenLoop : Check := do
  checkMaxInFlight profile
  refuseWith (0 < profile.rampUpSeconds)
    "open-loop에선 ramp_up_seconds를 쓸 수 없습니다 (RPS 곡선은 S-D stages)"
  refuseWith profile.thinkTime.isSome
    "open-loop에선 run-level think_time을 쓸 수 없습니다 (closed-loop 전용)"
  checkRates profile
  refuseWith (0 < profile.vus)
    "open-loop에선 vus가 무시됩니다 — 수평 확장은 worker_count, VU 기반 부하는 closed-loop(vus)을 쓰세요"
  checkFanOut profile

def checkLoad : Check :=
  if profile.isVuCurve then
    checkVuCurve profile
  else if profile.isOpenLoop then
    checkOpenLoop profile
  else
    refuseWith (profile.vus = 0 ∨ profile.durationSeconds = 0)
      "vus and duration_seconds must be > 0"

def loopCapOk (cap max : ℕ) : Bool :=
  cap ≤ max

def thinkTimeInRange (t : ThinkTime) : Bool :=
  t.minMs ≤ t.maxMs && t.maxMs ≤ 600000

def checkLimits : Check := do
  let loopCapMax := settings.maxLoopBreakdownCap
  refuseWith (¬loopCapOk profile.loopBreakdownCap loopCapMax)
    s!"loop_breakdown_cap must be <= {loopCapMax} (0 disables breakdown)"
  refuseWith (profile.httpTimeoutSeconds = 0 ∨ 600 < profile.httpTimeoutSeconds)
    "http_timeout_seconds must be between 1 and 600"
  match profile.connectTimeoutSeconds with
  | none => pure ()
  | some ct => do
    refuseWith (¬(1 ≤ ct ∧ ct ≤ 600)) "connect_timeout_seconds must be between 1 and 600"
    refuseWith (profile.httpTimeoutSeconds ≤ ct)
      "connect_timeout_seconds must be less than http_timeout_seconds"
  refuseWith (profile.thinkTime.any (!thinkTimeInRange ·))
    "think_time: min_ms <= max_ms <= 600000 (10분) 이어야 합니다"

end Load

section Bindings

-- The first name that occurs a second time, in order.
def firstDuplicate : List String → List String → Option String
  | _,    []        => none
  | seen, v :: vars => if v ∈ seen then some v else firstDuplicate (v :: seen) vars

def checkColumn (columns : List String) (col : String) : Check :=
  refuseWith (col ∉ columns) <|
    s!"매핑 컬럼 '{col}'이 데이터셋에 없습니다 (있는 컬럼: " ++ toString (columns.map String.quote) ++ ")"

def checkBinding (state : AppState) (n : ℕ) (b : DataBinding) : Except ApiError DatasetMeta :=
  match state.getMeta b.datasetId with
  | none => .error <| .badRequest s!"데이터셋 '{b.datasetId}'이 존재하지 않습니다"
  | some data => do
    refuseWith (data.rowCount = 0) "빈 데이터셋은 바인딩할 수 없습니다"
    b.referencedColumns.forM (checkColumn data.columns)
    if b.policy = .unique then
      refuseWith (2 ^ 32 ≤ data.rowCount)
        "unique 정책은 데이터셋 행 수가 u32 범위를 넘을 수 없습니다"
      refuseWith (data.rowCount < n) <|
        s!"unique 정책은 데이터셋 행 수가 워커 수 이상이어야 합니다: rows={data.rowCount} < workers={n}"
    refuseWith (b.policy ≠ .perVu ∧ state.settings.datasetMaxRows < data.rowCount) <|
      s!"per-iteration 바인딩 행 수 {data.rowCount}가 상한 {state.settings.datasetMaxRows}을 초과합니다"
    pure data

def checkBindings (state : AppState) (profile : Profile) : Except ApiError (List DatasetMeta) := do
  let bindings := profile.effectiveBindings
  if bindings.isEmpty then
    return []
  let maxBindings := state.settings.maxDataBindings
  refuseWith (maxBindings < bindings.length)
    s!"데이터셋 바인딩은 최대 {maxBindings}개입니다 ({bindings.length}개)"
  match firstDuplicate [] (collectVarNames bindings) with
  | some var => throw <| .badRequest s!"변수 '{var}'이 여러 데이터셋에 중복 매핑됨"
  | none =>
    let n := fanoutWorkerCount profile state.settings.workerCapacityVus
    bindings.mapM (checkBinding state n)

end Bindings

def validateRunConfig (state : AppState) (profile : Profile) :
    Except ApiError (List DatasetMeta) := do
  checkRampDown profile
  checkWorkerCount state.settings profile
  checkLoad profile
  checkLimits state.settings profile
  profile.criteria.forM validateCriteria
  checkBindings state profile

end Api
