import Handicap.Library.Guard
import Handicap.Library.Text
import Handicap.Monitor.JsonPath
import Handicap.Store.Profile
import Mathlib.Data.List.Sort

-- The configuration of a monitor board, and the checks that bring it into its form.
namespace Monitor

open Guard (refuse each)

def maxPanels       := 9
def maxThresholds   := 5
def maxConditions   := 10
def maxDisplayItems := 2
def nameMaxChars    := 40

inductive FontScale
  | small
  | medium
  | large
  | xlarge
  deriving DecidableEq

inductive Blink
  | off
  | fail
  | slowAndFail
  deriving DecidableEq

inductive DisplayStyle
  | fill
  | border
  | focus
  deriving DecidableEq

inductive ConditionSource
  | body
  | header
  | status
  | bodyText
  deriving DecidableEq

inductive ConditionOp
  | exists
  | notEmpty
  | eq
  | ne
  | contains
  | gt
  | lt
  | gte
  | lte
  | oneOf
  deriving DecidableEq

def trim : String → String :=
  Text.trim Store.isWhiteSpace

-- The candidates of a comparison with several values.
def oneOfCandidates (value : String) : List String :=
  ((value.toList.splitOn ',').map fun l => trim (.ofList l)).filter (· ≠ "")

namespace ConditionOp

def needsValue : ConditionOp → Bool
  | eq | ne | contains | gt | lt | gte | lte | oneOf => true
  | _                                                => false

def hasFlags : ConditionOp → Bool
  | eq | ne | contains | oneOf => true
  | _                          => false

def isOrder : ConditionOp → Bool
  | gt | lt | gte | lte => true
  | _                   => false

end ConditionOp

def ConditionSource.allows : ConditionSource → ConditionOp → Bool
  | body, _ | header, _ => true
  | status, op          => op ∈ [.eq, .ne, .gt, .lt, .gte, .lte, .oneOf]
  | bodyText, op        => op ∈ [.contains, .notEmpty]

-- From this number on a decimal is rounded to infinity.
def f64Overflow : ℚ :=
  2 ^ 1024 - 2 ^ 970

-- The number of a text, before it is rounded, if it is finite.
def parseFinite (s : String) : Option ℚ :=
  (Text.decimal (trim s).toList).filter fun q => |q| < f64Overflow

structure Condition where
  stepId     : String
  source     : ConditionSource
  path       : String
  op         : ConditionOp
  value      : String
  ignoreCase : Bool
  trim       : Bool
  deriving DecidableEq

inductive DisplaySource
  | body
  | header
  | status
  deriving DecidableEq

structure DisplayItem where
  stepId : String
  source : DisplaySource
  path   : String
  deriving DecidableEq

inductive LatencySource
  | total
  | step (stepId : String)
  deriving DecidableEq

structure Threshold where
  ms    : ℕ
  color : String
  deriving DecidableEq

structure PanelConfig where
  id              : String := ""
  title           : String := ""
  scenarioId      : String := ""
  environmentId   : Option String := none
  intervalSeconds : ℕ := 10
  timeoutSeconds  : ℕ := 5
  latencySource   : LatencySource := .total
  thresholds      : List Threshold := []
  barCount        : ℕ := 60
  graphMaxMs      : ℕ := 2000
  conditions      : List Condition := []
  displayItems    : List DisplayItem := []
  groupId         : Option String := none
  stepId          : Option String := none
  deriving DecidableEq

-- One run of a scenario that the panels of several steps share.
structure CheckGroup where
  id              : String := ""
  scenarioId      : String := ""
  environmentId   : Option String := none
  intervalSeconds : ℕ := 10
  deriving DecidableEq

structure BoardConfig where
  fontScale        : FontScale := .large
  blink            : Blink := .fail
  displayStyle     : DisplayStyle := .border
  panels           : List PanelConfig := []
  showLatencyStats : Bool := true
  recordLimitKb    : ℕ := 128
  groups           : List CheckGroup := []
  deriving DecidableEq

-- What the checks ask of the ids and of the paths.
structure ConfigLib where
  isUlid          : String → Bool
  jsonpathIsValid : String → Bool

-- A panel of a group has the scenario, the environment and the interval of the group.
def PanelConfig.mirror (p : PanelConfig) (g : CheckGroup) : PanelConfig :=
  { p with
    scenarioId      := g.scenarioId
    environmentId   := g.environmentId
    intervalSeconds := g.intervalSeconds }

def BoardConfig.groupOf (cfg : BoardConfig) (p : PanelConfig) : Option CheckGroup :=
  p.groupId.bind fun gid => cfg.groups.find? (·.id = gid)

def applyGroupMirror (cfg : BoardConfig) : BoardConfig :=
  { cfg with panels := cfg.panels.map fun p => ((cfg.groupOf p).map p.mirror).getD p }

-- A panel of a step measures, judges and shows that step.
def PanelConfig.bindTo (p : PanelConfig) (step : String) : PanelConfig :=
  { p with
    latencySource := .step step
    conditions    := p.conditions.map ({ · with stepId := step })
    displayItems  := p.displayItems.map ({ · with stepId := step }) }

def normalizeStepPanel (p : PanelConfig) : PanelConfig :=
  (p.stepId.map p.bindTo).getD p

variable (lib : ConfigLib)

def checkStepId (p : PanelConfig) : Except String Unit :=
  refuse (∃ s ∈ p.stepId, !lib.isUlid s) "스텝 id가 올바른 ULID 형식이 아닙니다"

def inRange (v lo hi : ℕ) : Bool :=
  lo ≤ v && v ≤ hi

def BoardConfig.hasMember (cfg : BoardConfig) (g : String) : Bool :=
  cfg.panels.any (·.groupId = some g)

-- The position of the first panel of a group, which is behind all of them if there is none.
def BoardConfig.first (cfg : BoardConfig) (g : CheckGroup) : ℕ :=
  (cfg.panels.findIdx? (·.groupId = some g.id)).getD (2 ^ 64 - 1)

def BoardConfig.sortGroups (cfg : BoardConfig) : BoardConfig :=
  { cfg with groups := cfg.groups.insertionSort (cfg.first · ≤ cfg.first ·) }

def checkGroups (cfg : BoardConfig) : ℕ → List String → List CheckGroup → Except String Unit
  | _, _, []         => .ok ()
  | n, seen, g :: gs => do
    refuse (!lib.isUlid g.id) s!"점검 묶음 {n}: 묶음 id가 올바른 ULID 형식이 아닙니다"
    refuse (g.id ∈ seen) s!"점검 묶음 {n}: 묶음 id가 중복됩니다"
    refuse (trim g.scenarioId = "") s!"점검 묶음 {n}: 시나리오를 선택해야 합니다"
    refuse (!inRange g.intervalSeconds 1 3600) s!"점검 묶음 {n}: 점검 주기는 1~3600초여야 합니다"
    refuse (!cfg.hasMember g.id) s!"점검 묶음 {n}: 칸이 없는 점검 묶음입니다"
    checkGroups cfg (n + 1) (g.id :: seen) gs

-- The panels of a group stand together. A group that is left is closed.
def checkPlacement (groups : List CheckGroup) :
    ℕ → List String → Option String → List PanelConfig → Except String Unit
  | _, _, _, []              => .ok ()
  | n, closed, prev, p :: ps => do
    refuse (∃ g ∈ p.groupId, ¬groups.any (·.id = g)) s!"칸 {n}: 없는 점검 묶음을 가리킵니다"
    refuse (∃ g ∈ p.groupId, prev ≠ some g ∧ g ∈ closed)
      s!"칸 {n}: 같은 점검 묶음의 칸은 붙어 있어야 합니다"
    refuse (p.groupId.isSome ∧ p.stepId = none) s!"칸 {n}: 점검 묶음 칸은 볼 스텝을 골라야 합니다"
    let closed := if prev ≠ p.groupId then prev.toList ++ closed else closed
    checkPlacement groups (n + 1) closed p.groupId ps

def validateGroups (cfg : BoardConfig) : Except String BoardConfig := do
  let cfg := cfg.sortGroups
  checkGroups lib cfg 1 [] cfg.groups
  checkPlacement cfg.groups 1 [] none cfg.panels
  return cfg

def isHexDigit (c : Char) : Bool :=
  c.isDigit || ('a' ≤ c && c ≤ 'f') || ('A' ≤ c && c ≤ 'F')

def isHexColor (s : String) : Bool :=
  match s.toList with
  | '#' :: l => l.length = 6 && l.all isHexDigit
  | _        => false

def checkName (label trimmed : String) : Except String Unit :=
  refuse (!inRange trimmed.length 1 nameMaxChars) s!"{label}은(는) 1~{nameMaxChars}자여야 합니다"

def checkThresholds : ℕ → List Threshold → Except String Unit
  | _, []         => .ok ()
  | prev, t :: ts => do
    refuse (!inRange t.ms 1 600000) "기준선 응답속도는 1~600000ms여야 합니다"
    refuse (t.ms ≤ prev) "기준선 응답속도는 엄격한 오름차순이어야 합니다"
    refuse (!isHexColor t.color) "기준선 색상은 #rrggbb 형식이어야 합니다"
    checkThresholds t.ms ts

-- The path of a condition, which only the body and the headers have.
def checkPath (source : ConditionSource) (path : String) : Except String String :=
  match source with
  | .body   => do
    refuse (!inRange path.length 1 500) "본문 경로는 1~500자여야 합니다"
    refuse (!lib.jsonpathIsValid path) "본문 경로(JSONPath)가 올바르지 않습니다"
    refuse (!jsonpathIsSimple path) "본문 경로(JSONPath)가 올바르지 않습니다"
    return path
  | .header => do
    refuse (!inRange (trim path).length 1 200) "헤더 이름은 1~200자여야 합니다"
    return trim path
  | _       => return ""

-- A condition keeps what its operator uses.
def Condition.normalize (c : Condition) (path : String) : Condition :=
  { c with
    path
    value      := if c.op.needsValue then c.value else ""
    ignoreCase := c.op.hasFlags && c.ignoreCase
    trim       := c.op.hasFlags && c.trim }

def checkValue (op : ConditionOp) (value : String) : Except String Unit := do
  refuse (200 < value.length) "비교값은 200자 이하여야 합니다"
  refuse (op = .contains ∧ value = "") "포함 조건의 비교값을 입력해야 합니다"
  refuse (op.isOrder ∧ parseFinite value = none)
    "크기 비교 조건(>, <, ≥, ≤)의 비교값은 숫자여야 합니다"
  refuse (op = .oneOf ∧ oneOfCandidates value = [])
    "여러 값 중 하나(∈) 조건의 후보값을 하나 이상 입력해야 합니다"

def validateCondition (c : Condition) : Except String Condition := do
  refuse (!lib.isUlid c.stepId) "조건 스텝 id가 올바른 ULID 형식이 아닙니다"
  refuse (!c.source.allows c.op) "이 대상에 쓸 수 없는 조건 규칙입니다"
  let path ← checkPath lib c.source c.path
  let c := c.normalize path
  checkValue c.op c.value
  return c

def validateConditions (conds : List Condition) : Except String (List Condition) := do
  refuse (maxConditions < conds.length) s!"성공 조건은 최대 {maxConditions}개까지 설정할 수 있습니다"
  each (fun _ => validateCondition lib) 1 conds

def authHeaders : List String :=
  ["set-cookie", "cookie", "authorization", "proxy-authorization"]

def checkDisplayPath (source : DisplaySource) (path : String) : Except String String :=
  match source with
  | .body   => do
    refuse (!inRange path.length 1 500) "화면 표시 항목 본문 경로는 1~500자여야 합니다"
    refuse (!lib.jsonpathIsValid path || !jsonpathIsSimple path)
      "화면 표시 항목 본문 경로(JSONPath)가 올바르지 않습니다"
    return path
  | .header => do
    refuse (!inRange (trim path).length 1 200) "화면 표시 항목 헤더 이름은 1~200자여야 합니다"
    refuse ((trim path).toLower ∈ authHeaders) "화면 표시 항목에는 인증 헤더를 쓸 수 없습니다"
    return trim path
  | .status => return ""

def validateDisplayItem (d : DisplayItem) : Except String DisplayItem := do
  refuse (!lib.isUlid d.stepId) "화면 표시 항목 스텝 id가 올바른 ULID 형식이 아닙니다"
  let path ← checkDisplayPath lib d.source d.path
  return { d with path }

def validateDisplayItems (items : List DisplayItem) : Except String (List DisplayItem) := do
  refuse (maxDisplayItems < items.length)
    s!"화면 표시 항목은 최대 {maxDisplayItems}개까지 설정할 수 있습니다"
  each (fun _ => validateDisplayItem lib) 1 items

-- A panel without an id is given a new one.
def checkPanelId (new id : String) : Except String String :=
  if id = "" then
    return new
  else do
    refuse (!lib.isUlid id) "칸 id가 올바른 ULID 형식이 아닙니다"
    return id

def checkRanges (p : PanelConfig) : Except String Unit := do
  refuse (trim p.scenarioId = "") "시나리오를 선택해야 합니다"
  refuse (!inRange p.intervalSeconds 1 3600) "점검 주기는 1~3600초여야 합니다"
  refuse (!inRange p.timeoutSeconds 1 30) "제한 시간은 1~30초여야 합니다"
  refuse (maxThresholds < p.thresholds.length)
    s!"기준선은 최대 {maxThresholds}개까지 설정할 수 있습니다"
  checkThresholds 0 p.thresholds
  refuse (!inRange p.barCount 10 300) "막대 개수는 10~300개여야 합니다"
  refuse (!inRange p.graphMaxMs 100 600000) "그래프 최대값은 100~600000ms여야 합니다"

def validatePanel (new : String) (p : PanelConfig) : Except String PanelConfig := do
  let title := trim p.title
  checkName "칸 제목" title
  let id ← checkPanelId lib new p.id
  checkRanges p
  let conditions ← validateConditions lib p.conditions
  let displayItems ← validateDisplayItems lib p.displayItems
  return { p with title, id, conditions, displayItems }

def checkCounts (cfg : BoardConfig) : Except String Unit := do
  refuse (!inRange cfg.panels.length 1 maxPanels) s!"칸은 1~{maxPanels}개여야 합니다"
  refuse (maxPanels < cfg.groups.length) s!"점검 묶음은 {maxPanels}개 이하여야 합니다"

-- The error of a panel names it.
def inPanel {α : Type} (n : ℕ) (x : Except String α) : Except String α :=
  x.mapError fun e => s!"칸 {n}: {e}"

def normalizePanels (cfg : BoardConfig) : BoardConfig :=
  let cfg := applyGroupMirror cfg
  { cfg with panels := cfg.panels.map normalizeStepPanel }

-- The trimmed name and the board in its form. The ids that panels without one are given are
-- numbered by the panels.
def validateAndNormalize (new : ℕ → String) (name : String) (cfg : BoardConfig) :
    Except String (String × BoardConfig) := do
  let name := trim name
  checkName "보드 이름" name
  checkCounts cfg
  let cfg ← validateGroups lib cfg
  let _ ← each (fun n p => inPanel n (checkStepId lib p)) 1 cfg.panels
  let cfg := normalizePanels cfg
  let panels ← each (fun n p => inPanel n (validatePanel lib (new n) p)) 1 cfg.panels
  refuse (¬(panels.map (·.id)).Nodup) "칸 id가 중복되었습니다"
  refuse (!inRange cfg.recordLimitKb 16 1024) "점검 기록 상한은 16~1024KB여야 합니다"
  return (name, { cfg with panels })

section

-- The units of a board, each of which is one run of a scenario.
structure CheckUnit where
  scenarioId      : String
  environmentId   : Option String
  intervalSeconds : ℕ
  panels          : List PanelConfig
  deriving DecidableEq

inductive UnitPlan
  | whole (panel : PanelConfig)
  | steps (unit : CheckUnit)
  deriving DecidableEq

namespace UnitPlan

def panels : UnitPlan → List PanelConfig
  | whole p => [p]
  | steps u => u.panels

def scenarioId : UnitPlan → String
  | whole p => p.scenarioId
  | steps u => u.scenarioId

def environmentId : UnitPlan → Option String
  | whole p => p.environmentId
  | steps u => u.environmentId

def intervalSeconds : UnitPlan → ℕ
  | whole p => p.intervalSeconds
  | steps u => u.intervalSeconds

end UnitPlan

-- The unit of a group has all of its panels.
def CheckGroup.unit (cfg : BoardConfig) (g : CheckGroup) : CheckUnit where
  scenarioId      := g.scenarioId
  environmentId   := g.environmentId
  intervalSeconds := g.intervalSeconds
  panels          := cfg.panels.filter (·.groupId = some g.id)

def PanelConfig.unit (p : PanelConfig) : CheckUnit where
  scenarioId      := p.scenarioId
  environmentId   := p.environmentId
  intervalSeconds := p.intervalSeconds
  panels          := [p]

-- A group is planned where its first panel stands.
def planFrom (cfg : BoardConfig) : List String → List PanelConfig → List UnitPlan
  | _, []         => []
  | seen, p :: ps =>
    match cfg.groupOf p with
    | some g =>
      if g.id ∈ seen then planFrom cfg seen ps
      else .steps (g.unit cfg) :: planFrom cfg (g.id :: seen) ps
    | none   =>
      (if p.stepId.isSome then .steps p.unit else .whole p) :: planFrom cfg seen ps

def planUnits (cfg : BoardConfig) : List UnitPlan :=
  planFrom cfg [] cfg.panels

end

end Monitor
