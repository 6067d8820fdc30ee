import Handicap.Library.Table
import Mathlib.Data.Finset.Erase
import Mathlib.Data.Finset.Insert

-- The settings that can be changed at run time: their registry, and the snapshot of the values in
-- force.
namespace Settings

structure SettingDef where
  key       : String
  label     : String
  min       : ℤ
  max       : ℤ
  isMutable : Bool
  default   : ℤ
  deriving DecidableEq

def heartbeatInterval : String :=
  "pool_heartbeat_interval_seconds"

def staleTimeout : String :=
  "pool_stale_timeout_seconds"

def i64Max : ℤ :=
  2 ^ 63 - 1

def intervalDef : SettingDef :=
  ⟨heartbeatInterval, "풀 하트비트 ping 주기", 1, 3600, true, 10⟩

def staleDef : SettingDef :=
  ⟨staleTimeout, "풀 워커 stale 타임아웃", 2, 86400, true, 30⟩

def settings : List SettingDef :=
  [⟨"worker_capacity_vus", "워커당 VU 수용량", 1, 1000000, true, 2000⟩,
    ⟨"dataset_max_rows", "반복 바인딩 데이터셋 최대 행 수", 1, 100000000, true, 1000000⟩,
    ⟨"max_open_loop_worker_count", "열린 루프 워커 수 상한", 1, 256, true, 64⟩,
    ⟨"max_data_bindings", "run당 데이터셋 바인딩 최대 개수", 1, 64, true, 8⟩,
    ⟨"max_loop_breakdown_cap", "반복별 메트릭 상한의 최댓값", 0, 1000000, true, 10000⟩,
    ⟨"max_test_run_requests", "테스트 실행 최대 요청 수", 1, 100000, true, 10000⟩,
    intervalDef,
    staleDef,
    ⟨"run_startup_grace_seconds", "Run 시작 grace (startup 라이브니스)", 10, 3600, true, 90⟩,
    ⟨"run_backstop_grace_seconds", "Run 백스톱 grace (예상 종료 초과)", 10, 3600, true, 120⟩,
    ⟨"trace_body_cap_bytes", "테스트 실행 응답 본문 캡", 0, i64Max, false, 1048576⟩,
    ⟨"scheduler_tick_seconds", "스케줄러 점검 주기", 0, i64Max, false, 30⟩,
    ⟨"pool_keepalive_seconds", "풀 gRPC keepalive (서버측)", 0, i64Max, false, 20⟩]

def SettingDef.inRange (d : SettingDef) (v : ℤ) : Bool :=
  d.min ≤ v && v ≤ d.max

def findDef (key : String) : Option SettingDef :=
  settings.find? (·.key = key)

def validate (key : String) (value : ℤ) : Except String Unit :=
  match findDef key with
  | none   => .error s!"알 수 없는 설정 키: {key}"
  | some d =>
    if ¬d.isMutable then
      .error s!"'{d.label}'은(는) 배포 설정이라 변경할 수 없습니다"
    else if ¬d.inRange value then
      .error s!"'{d.label}' 값은 {d.min}~{d.max} 범위여야 합니다 (받음: {value})"
    else
      .ok ()

-- A timeout that is not above the interval would evict healthy workers.
def checkHeartbeatPair (interval stale : ℕ) : Except String Unit :=
  if stale ≤ interval then
    .error s!"stale 타임아웃({stale}초)은 ping 주기({interval}초)보다 커야 합니다 (먼저 stale를 올리세요)"
  else
    .ok ()

-- The conversion from i64 to u64.
def asU64 (v : ℤ) : ℕ :=
  (v % 2 ^ 64).toNat

structure MutSnap where
  values     : Table String ℤ
  overridden : Finset String
  deriving DecidableEq

structure SettingsState where
  snap     : MutSnap
  seeds    : Table String ℤ
  readonly : Table String ℤ
  deriving DecidableEq

namespace SettingsState

section

variable (dbOverrides : String → Option ℤ) (cliSeeds : List (String × ℤ))

def seedFor (d : SettingDef) : ℤ :=
  ((cliSeeds.find? (·.1 = d.key)).map Prod.snd).getD d.default

-- An override that is out of range is ignored.
def addDef (s : SettingsState) (d : SettingDef) : SettingsState :=
  let seed := seedFor cliSeeds d
  if d.isMutable then
    match (dbOverrides d.key).filter d.inRange with
    | some v =>
      { s with
        snap  := ⟨s.snap.values.insert d.key v, insert d.key s.snap.overridden⟩
        seeds := s.seeds.insert d.key seed }
    | none   =>
      { s with
        snap  := { s.snap with values := s.snap.values.insert d.key seed }
        seeds := s.seeds.insert d.key seed }
  else
    { s with readonly := s.readonly.insert d.key seed }

-- A timeout that is not above the interval is raised. The addition wraps around.
def clampStale (values : Table String ℤ) : Table String ℤ :=
  match values.lookup heartbeatInterval, values.lookup staleTimeout with
  | some interval, some stale =>
    if stale ≤ interval then
      values.insert staleTimeout (Int.bmod (interval + 1) (2 ^ 64))
    else
      values
  | _, _ => values

def build : SettingsState :=
  let s := settings.foldl (addDef dbOverrides cliSeeds) ⟨⟨∅, ∅⟩, ∅, ∅⟩
  { s with snap := { s.snap with values := clampStale s.snap.values } }

end

variable (s : SettingsState)

-- Every setting that is mutable has a value.
def get (key : String) : ℤ :=
  (s.snap.values.lookup key).getD 0

def poolHeartbeatIntervalSeconds : ℕ :=
  asU64 (s.get heartbeatInterval)

def poolStaleTimeoutSeconds : ℕ :=
  asU64 (s.get staleTimeout)

def seedOf (key : String) : Option ℤ :=
  s.seeds.lookup key

def applyOverride (key : String) (value : ℤ) : SettingsState :=
  { s with snap := ⟨s.snap.values.insert key value, insert key s.snap.overridden⟩ }

def revert (key : String) : SettingsState :=
  { s with
    snap := ⟨s.snap.values.insert key ((s.seedOf key).getD 0), s.snap.overridden.erase key⟩ }

end SettingsState

end Settings
