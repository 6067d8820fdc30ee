import Handicap.Library.Binary64
import Handicap.Monitor.Record
import Handicap.Monitor.Supervisor

open Engine (Json JsonNumber HttpStep eqIgnoreAsciiCase)

-- How the trace of a whole flow is judged for one panel. The mapping of a text to lower case is a
-- parameter.
namespace Monitor

def monitorMaxRequests := 50
def shownMaxChars      := 200
def maxJsonUnwrap      := 3

def reasonLatencyStepMissing := "응답 시간 기준 스텝 없음"
def reasonRequestCap         := "요청 수 상한(50) 초과"
def reasonTraceError         := "시나리오 실행 오류"
def reasonBadRequestBuild    := "요청 구성 오류"
def reasonReadBody           := "응답 본문 읽기 실패"
def reasonExtract            := "값 추출 실패"
def reasonRequestFailed      := "요청 실패"
def reasonUnboundVar         := "변수 미설정"
def reasonCondStepMissing    := "조건 기준 스텝 없음"
def reasonCondStepNotRun     := "조건 스텝 미실행"
def reasonBodyNotJson        := "본문이 JSON 아님"
def reasonBodyTooLarge       := "응답 본문이 너무 큼"
def reasonNoValue            := "값 없음"
def reasonEmpty              := "비어 있음"
def reasonValueDiffers       := "값 다름"
def reasonNotContainedTail   := "\" 포함 안 됨"
def reasonUpstream           := "앞 단계 실패"
def reasonBranchValueMissing := "분기 값 없음"

-- The format characters.
def formatChars : List (ℕ × ℕ) :=
  [(0x00AD, 0x00AD), (0x0600, 0x0605), (0x061C, 0x061C), (0x06DD, 0x06DD), (0x070F, 0x070F),
    (0x0890, 0x0891), (0x08E2, 0x08E2), (0x180E, 0x180E), (0x200B, 0x200F), (0x202A, 0x202E),
    (0x2060, 0x2064), (0x2066, 0x206F), (0xFEFF, 0xFEFF), (0xFFF9, 0xFFFB), (0x110BD, 0x110BD),
    (0x110CD, 0x110CD), (0x13430, 0x1343F), (0x1BCA0, 0x1BCA3), (0x1D173, 0x1D17A),
    (0xE0001, 0xE0001), (0xE0020, 0xE007F)]

def isFormatChar (c : Char) : Bool :=
  formatChars.any fun r => r.1 ≤ c.toNat && c.toNat ≤ r.2

def isControl (c : Char) : Bool :=
  c.toNat < 0x20 || (0x7F ≤ c.toNat && c.toNat < 0xA0)

-- A blank stands for a control or format character, or a separator of lines or paragraphs.
def normalizeChars (l : List Char) : List Char :=
  l.map fun c =>
    if isControl c || c.toNat = 0x2028 || c.toNat = 0x2029 || isFormatChar c then ' ' else c

-- A text that is too long is cut, and ends with an ellipsis then.
def clip (n : ℕ) (l : List Char) : List Char :=
  if l.length ≤ n then l else l.take (n - 1) ++ ['…']

-- A value of a user as it is shown on a wall.
def shown (s : String) : String :=
  .ofList (clip shownMaxChars (normalizeChars (s.toList.take (shownMaxChars + 1))))

-- The value is cut so that what comes after it stays.
def reasonNotContained (needle : String) : String :=
  let room := shownMaxChars - (1 + reasonNotContainedTail.length)
  "\"" ++ .ofList (clip room (normalizeChars needle.toList)) ++ reasonNotContainedTail

def reasonTimeout (secs : ℕ) : String :=
  s!"시간 초과({secs}초)"

def reasonHttp (status : ℕ) : String :=
  s!"HTTP {status}"

namespace CheckResult

def withReason (atMs : ℤ) (verdict : Verdict) (reason : String) : CheckResult where
  atMs
  verdict
  latencyMs := none
  reason    := some reason
  detail    := none
  display   := []

-- The result of a condition.
def condResult (atMs : ℤ) (verdict : Verdict) (reason detail : String) : CheckResult where
  atMs
  verdict
  latencyMs := none
  reason    := some (shown reason)
  detail    := some (shown detail)
  display   := []

end CheckResult

def Condition.targetLabel (c : Condition) : String :=
  match c.source, c.path.toList with
  | .body, ['$']            => "본문"
  | .body, '$' :: '.' :: l  => .ofList l
  | .body, '$' :: '[' :: l  => .ofList ('[' :: l)
  | .body, _                => c.path
  | .header, _              => s!"헤더 {c.path}"
  | .status, _              => "상태코드"
  | .bodyText, _            => "본문 전체"

def ruleLabel : ConditionOp → String
  | .exists   => "키 있음"
  | .notEmpty => "값 있음"
  | .eq       => "="
  | .ne       => "≠"
  | .contains => "글자 포함"
  | .gt       => ">"
  | .lt       => "<"
  | .gte      => "≥"
  | .lte      => "≤"
  | .oneOf    => "∈"

-- The condition as a text, which is shown with its result.
def conditionDetail (c : Condition) (stepName : Option String) : String :=
  let value :=
    if c.op.needsValue then
      if c.op = .oneOf then " \x7b" ++ ", ".intercalate (oneOfCandidates c.value) ++ "\x7d"
      else if c.value = "" then " \"\""
      else " " ++ c.value
    else
      ""
  let step :=
    match stepName with
    | some n => " · " ++ n
    | none   => ""
  s!"{c.targetLabel} {ruleLabel c.op}" ++ value ++ step

mutual

-- All http steps of a step or of steps.
def stepHttpSteps : Engine.Step → List HttpStep
  | .http step                              => [step]
  | .loop _ _ _ body                        => collectHttpSteps body
  | .ifStep _ _ _ thenSteps elifs elseSteps =>
    collectHttpSteps thenSteps ++ elifHttpSteps elifs ++ collectHttpSteps elseSteps
  | .parallel _ _ branches                  => branchHttpSteps branches

def collectHttpSteps : List Engine.Step → List HttpStep
  | []            => []
  | step :: steps => stepHttpSteps step ++ collectHttpSteps steps

def elifHttpSteps : List (Engine.Condition × List Engine.Step) → List HttpStep
  | []              => []
  | (_, body) :: es => collectHttpSteps body ++ elifHttpSteps es

def branchHttpSteps : List (String × List Engine.Step) → List HttpStep
  | []              => []
  | (_, body) :: bs => collectHttpSteps body ++ branchHttpSteps bs

end

-- A condition on a step that the scenario does not have.
def conditionStepMissing (scenario : Engine.Scenario) (panel : PanelConfig) (atMs : ℤ) :
    Option CheckResult :=
  let all := collectHttpSteps scenario.steps
  (panel.conditions.find? fun c => !all.any (·.id = c.stepId)).map fun c =>
    .condResult atMs .configError reasonCondStepMissing (conditionDetail c none)

section

variable (lib : Engine.Libraries)

-- An object or array that is wrapped in strings is unwrapped, some times.
def unwrapJson : ℕ → String → Option Json
  | 0, _        => none
  | n + 1, text =>
    match lib.fromStr text with
    | some (.object map)  => some (.object map)
    | some (.array items) => some (.array items)
    | some (.string next) => unwrapJson n next
    | _                   => none

def parseBodyJson (body : String) : Option Json :=
  (lib.fromStr body).map fun first =>
    match first with
    | .string s => (unwrapJson lib maxJsonUnwrap s).getD first
    | _         => first

inductive Actual
  | fixed (reason : String)
  | missing
  | val (text : String) (num : Option ℚ) (emptyContainer : Bool)

def asF64 : Json → Option ℚ
  | .number (.int n)   => some (Binary64.round n.val)
  | .number (.float q) => some q.val
  | _                  => none

def isEmptyContainer : Json → Bool
  | .array items => items.isEmpty
  | .object map  => map.isEmpty
  | _            => false

def findHeader (headers : Table String String) (name : String) : Option String :=
  (headers.toList.find? fun h => eqIgnoreAsciiCase h.1.toList name.toList).map Prod.snd

def actualValue (c : Condition) (resp : TracedResponse) : Actual :=
  match c.source with
  | .body     =>
    if resp.bodyTruncated then .fixed reasonBodyTooLarge
    else
      match parseBodyJson lib resp.body with
      | none      => .fixed reasonBodyNotJson
      | some json =>
        match Engine.jsonpathFirst lib json c.path with
        | none   => .missing
        | some v => .val (Engine.stringify lib v) (asF64 v) (isEmptyContainer v)
  | .header   =>
    match findHeader resp.headers (trim c.path) with
    | some v => .val v none false
    | none   => .missing
  | .status   => .val (toString resp.status) none false
  | .bodyText =>
    if resp.bodyTruncated then .fixed reasonBodyTooLarge else .val resp.body none false

-- The number of a text.
def parseF64 (s : String) : Option ℚ :=
  (parseFinite s).map Binary64.round

variable (toLower : String → String)

def normalizeCmp (s : String) (c : Condition) : String :=
  let s := if c.trim then trim s else s
  if c.ignoreCase then toLower s else s

-- A number is compared with a number if the value is one, and as a text otherwise.
def sameValue (c : Condition) (text : String) (num : Option ℚ) (value : String) : Bool :=
  match num, parseF64 value with
  | some n, some v => n = v
  | _, _           => normalizeCmp toLower text c = normalizeCmp toLower value c

def compareF64 (holds : ℚ → ℚ → Bool) (l r : String) : Bool :=
  match parseF64 l, parseF64 r with
  | some a, some b => holds a b
  | _, _           => false

def opPasses (c : Condition) (text : String) (num : Option ℚ) (emptyContainer : Bool) : Bool :=
  match c.op with
  | .exists   => true
  | .notEmpty => text ≠ "" && !emptyContainer
  | .eq       => sameValue toLower c text num c.value
  | .ne       => !sameValue toLower c text num c.value
  | .contains =>
    Engine.contains (normalizeCmp toLower c.value c).toList (normalizeCmp toLower text c).toList
  | .gt       => compareF64 (fun a b => a > b) text c.value
  | .lt       => compareF64 (fun a b => a < b) text c.value
  | .gte      => compareF64 (fun a b => a ≥ b) text c.value
  | .lte      => compareF64 (fun a b => a ≤ b) text c.value
  | .oneOf    => (oneOfCandidates c.value).any (sameValue toLower c text num)

-- The row of the last time that an http step has run.
def lastRow (trace : ScenarioTrace) (stepId : String) : Option StepTrace :=
  trace.steps.reverse.find? fun s => s.kind = .http && s.stepId = stepId

def isAuthHeader (name : String) : Bool :=
  authHeaders.any fun h => eqIgnoreAsciiCase (trim name).toList h.toList

-- Why a condition fails, if it does. The value of an authentication header is not told.
def evalCondition (trace : ScenarioTrace) (c : Condition) : Option String :=
  match (lastRow trace c.stepId).bind StepTrace.response with
  | none      => some reasonCondStepNotRun
  | some resp =>
    match actualValue lib c resp with
    | .fixed r                     => some r
    | .missing                     => some reasonNoValue
    | .val text num emptyContainer =>
      if opPasses toLower c text num emptyContainer then none
      else if c.source = .bodyText ∧ c.op = .contains then some (reasonNotContained c.value)
      else if text = "" ∨ emptyContainer then some reasonEmpty
      else if c.source = .header ∧ isAuthHeader c.path then some reasonValueDiffers
      else some text

-- The first condition that fails.
def evalConditions (all : List HttpStep) (panel : PanelConfig) (trace : ScenarioTrace)
    (atMs : ℤ) : Option CheckResult :=
  panel.conditions.findSome? fun c =>
    let name := if 2 ≤ all.length then (all.find? (·.id = c.stepId)).map HttpStep.name else none
    (evalCondition lib toLower trace c).map fun reason =>
      .condResult atMs .fail reason (conditionDetail c name)

end

def latencyStepExists (scenario : Engine.Scenario) (panel : PanelConfig) : Bool :=
  match panel.latencySource with
  | .total       => true
  | .step stepId => (collectHttpSteps scenario.steps).any (·.id = stepId)

def statusMismatch (http : Option HttpStep) (resp : TracedResponse) : Bool :=
  http.any fun h => h.assertions.any fun
    | .status code => code ≠ resp.status

-- Why a step has failed.
def classify (http : Option HttpStep) (row : StepTrace) (err : String) : String :=
  if "invalid header".toList.isPrefixOf err.toList then reasonBadRequestBuild
  else
    match row.response with
    | none      => reasonRequestFailed
    | some resp =>
      if statusMismatch http resp then reasonHttp resp.status
      else if "read body:".toList.isPrefixOf err.toList then reasonReadBody
      else reasonExtract

-- Why a flow has been cut.
def cutReason (trace : ScenarioTrace) (secs : ℕ) : String :=
  if monitorMaxRequests ≤ (trace.steps.filter (·.kind = .http)).length then reasonRequestCap
  else reasonTimeout secs

section

variable (lib : Engine.Libraries) (toLower : String → String)

def judge (scenario : Engine.Scenario) (panel : PanelConfig) (trace : ScenarioTrace) (atMs : ℤ) :
    CheckResult :=
  let all := collectHttpSteps scenario.steps
  if !latencyStepExists scenario panel then
    .withReason atMs .configError reasonLatencyStepMissing
  else if let some r := conditionStepMissing scenario panel atMs then
    r
  else if trace.truncated then
    .withReason atMs .fail (cutReason trace panel.timeoutSeconds)
  else if trace.error.isSome then
    .withReason atMs .fail reasonTraceError
  else if let some (row, err) :=
      (trace.steps.filter (·.kind = .http)).findSome? fun s => s.error.map (s, ·) then
    let http := all.find? (·.id = row.stepId)
    let named (reason : String) :=
      match http with
      | some h => if 2 ≤ all.length then s!"{reason} · {h.name}" else reason
      | none   => reason
    if row.unboundVars.isEmpty then .withReason atMs .fail (named (classify http row err))
    else .withReason atMs .configError (named reasonUnboundVar)
  else if let some r := evalConditions lib toLower all panel trace atMs then
    r
  else
    { atMs
      verdict   := .ok
      latencyMs :=
        match panel.latencySource with
        | .total       => some trace.totalMs
        | .step stepId =>
          ((lastRow trace stepId).bind StepTrace.response).map TracedResponse.latencyMs
      reason    := none
      detail    := none
      display   := [] }

def displayValue (trace : ScenarioTrace) (item : DisplayItem) : Option String := do
  let resp ← (lastRow trace item.stepId).bind StepTrace.response
  match item.source with
  | .body   =>
    if resp.bodyTruncated then none
    else
      let json ← parseBodyJson lib resp.body
      (Engine.jsonpathFirst lib json item.path).map fun v => shown (Engine.stringify lib v)
  | .header => (findHeader resp.headers (trim item.path)).map shown
  | .status => some (toString resp.status)

def displayValues (panel : PanelConfig) (trace : ScenarioTrace) : List (Option String) :=
  panel.displayItems.map (displayValue lib trace)

end

end Monitor
