import Handicap.Library.Filling
import Handicap.Monitor.Check

open Store (isWhiteSpace)
open Engine (HttpStep Extract CompareOp BranchEval)

-- How the panels of a unit that stand for steps are judged by one trace. Where the program would
-- panic there is no result.
namespace Monitor

def defaultStepLimitSecs := 5
def emptyText            := "\"\""
def envValueText         := "(환경 값)"
def authValueText        := "(인증 값)"

def isAuthExtract : Extract → Bool
  | .cookie _ _ _ _    => true
  | .header _ name _ _ => isAuthHeader name
  | .body _ _ _ _      => false
  | .status _          => false

mutual

-- The variables whose values come from cookies or authentication headers. Those of a branch are
-- there under their merged names as well.
def stepAuthVarNames : Engine.Step → List String
  | .http step                              => (step.extract.filter isAuthExtract).map Extract.var
  | .loop _ _ _ body                        => authVarNames body
  | .ifStep _ _ _ thenSteps elifs elseSteps =>
    authVarNames thenSteps ++ elifAuthVarNames elifs ++ authVarNames elseSteps
  | .parallel _ _ branches                  => branchAuthVarNames branches

def authVarNames : List Engine.Step → List String
  | []            => []
  | step :: steps => stepAuthVarNames step ++ authVarNames steps

def elifAuthVarNames : List (Engine.Condition × List Engine.Step) → List String
  | []              => []
  | (_, body) :: es => authVarNames body ++ elifAuthVarNames es

def branchAuthVarNames : List (String × List Engine.Step) → List String
  | []                 => []
  | (name, body) :: bs =>
    let inner := authVarNames body
    inner.map (fun v => s!"{name}.{v}") ++ inner ++ branchAuthVarNames bs

end

-- Every token takes a character.
def refsAnyFrom (names : List String) : ℕ → List Char → Bool
  | 0, _        => false
  | fuel + 1, l =>
    match Text.cut ['{', '{'] l with
    | none            => false
    | some (_, after) =>
      match Text.cut ['}', '}'] after with
      | none               => false
      | some (inner, rest) =>
        let name := trim (.ofList inner)
        let bare :=
          match Engine.rsplitOnce ':' name.toList with
          | some (n, _) => trim (.ofList n)
          | none        => name
        name ∈ names || bare ∈ names || refsAnyFrom names fuel rest

-- Whether a text has a token with one of the names, which may have a cast.
def refsAny (raw : String) (names : List String) : Bool :=
  refsAnyFrom names (raw.length + 1) raw.toList

def ifOpSymbol : CompareOp → String
  | .eq       => "="
  | .ne       => "≠"
  | .lt       => "<"
  | .gt       => ">"
  | .lte      => "≤"
  | .gte      => "≥"
  | .contains => "포함"
  | .matches  => "~"
  | .exists   => "값 있음"
  | .empty    => "비어 있음"

-- What a step is in: an if step with the branch of the step, or a parallel step.
inductive Anc
  | ifStep (id name label : String)
  | par (id : String) (branch : ℕ)
  deriving DecidableEq

mutual

-- The http and if steps with what they are in, from the outside to the inside.
def stepAncestors (stack : List Anc) : Engine.Step → List (String × List Anc)
  | .http step                                  => [(step.id, stack)]
  | .loop _ _ _ body                            => ancestorsIn stack body
  | .ifStep id name _ thenSteps elifs elseSteps =>
    (id, stack) :: ancestorsIn (stack ++ [.ifStep id name "then"]) thenSteps
      ++ elifAncestors stack id name 0 elifs
      ++ ancestorsIn (stack ++ [.ifStep id name "else"]) elseSteps
  | .parallel id _ branches                     => branchAncestors stack id 0 branches

def ancestorsIn (stack : List Anc) : List Engine.Step → List (String × List Anc)
  | []            => []
  | step :: steps => stepAncestors stack step ++ ancestorsIn stack steps

def elifAncestors (stack : List Anc) (id name : String) (j : ℕ) :
    List (Engine.Condition × List Engine.Step) → List (String × List Anc)
  | []              => []
  | (_, body) :: es =>
    ancestorsIn (stack ++ [.ifStep id name s!"elif_{j}"]) body ++
      elifAncestors stack id name (j + 1) es

def branchAncestors (stack : List Anc) (id : String) (i : ℕ) :
    List (String × List Engine.Step) → List (String × List Anc)
  | []              => []
  | (_, body) :: bs =>
    ancestorsIn (stack ++ [.par id i]) body ++ branchAncestors stack id (i + 1) bs

end

-- If an id is there more than once, the last step counts.
def ancestors (scenario : Engine.Scenario) (id : String) : Option (List Anc) :=
  (ancestorsIn [] scenario.steps).reverse.lookup id

-- Whether a step is in another branch of a parallel step.
def inSiblingBranch (mine : List Anc) (theirs : Option (List Anc)) : Bool :=
  mine.any fun
    | .par id i => (theirs.getD []).any fun
      | .par id' i'   => id' = id && i' ≠ i
      | .ifStep _ _ _ => false
    | .ifStep _ _ _ => false

def lastDecision (trace : ScenarioTrace) (id : String) : Option (ℕ × StepTrace) :=
  (trace.steps.zipIdx.reverse.find? fun r => r.1.kind = .if && r.1.stepId = id).map Prod.swap

-- The row of the outermost if step that has taken another branch, with the if step and the branch.
def exclusionRow (trace : ScenarioTrace) :
    List Anc → Option (ℕ × StepTrace × String × String × String)
  | []                            => none
  | .par _ _ :: chain             => exclusionRow trace chain
  | .ifStep id name label :: chain => do
    let (i, row) ← lastDecision trace id
    if row.branch = some label then exclusionRow trace chain else return (i, row, id, name, label)

def stepName (http : Option HttpStep) (id : String) : String :=
  match http with
  | some h => if h.name = "" then id else h.name
  | none   => id

def ifName (id name : String) : String :=
  if name = "" then id else name

-- How a step that has failed is judged, and why.
def errorVerdict (http : Option HttpStep) (row : StepTrace) (err : String) (limitSecs : ℕ) :
    Verdict × String :=
  if !row.unboundVars.isEmpty then (.configError, reasonUnboundVar)
  else if row.timedOut then (.fail, reasonTimeout limitSecs)
  else (.fail, classify http row err)

-- The name if an operand is one token.
def targetLabel (left : String) : String :=
  let name := (Engine.between ['{', '{'] ['}', '}'] left.toList).map fun l => trim (.ofList l)
  let isName (n : String) := n ≠ "" && n.toList.all fun c => c ≠ '{' && c ≠ '}' && !isWhiteSpace c
  (name.filter isName).getD left

def stepResult (atMs : ℤ) (verdict : Verdict) (reason detail : Option String) : CheckResult where
  atMs
  verdict
  latencyMs := none
  reason    := reason.map shown
  detail    := detail.map shown
  display   := []

-- The evaluation that has kept a branch from being taken: its own, or that of the branch before it.
def blocking (evals : List BranchEval) (label : String) : Option BranchEval :=
  (evals.find? fun e => e.branch = label && !e.passed) <|> evals.find? (·.passed)

def isPresence (op : CompareOp) : Bool :=
  op = .exists || op = .empty

-- The value of an operand as it is shown: those of the environment and of authentication are not.
def leafValue (l : Engine.LeafEval) (authVars : List String) : String :=
  match l.leftValue with
  | none   => envValueText
  | some v =>
    if Engine.contains ['$', '{'] l.left.toList then envValueText
    else if isPresence l.op then if v = "" then "비어 있음" else "값 있음"
    else if refsAny l.left authVars then authValueText
    else if v = "" then emptyText
    else v

def leafCondition (l : Engine.LeafEval) : String :=
  let target := targetLabel l.left
  let right := (l.right.filter (· ≠ "")).getD emptyText
  if isPresence l.op then s!"조건 {target} {ifOpSymbol l.op}"
  else s!"조건 {target} {ifOpSymbol l.op} {right}"

-- The result of a step whose branch has not been taken.
def branchResult (atMs : ℤ) (row : StepTrace) (id name label : String) (authVars : List String) :
    CheckResult :=
  let name := ifName id name
  match blocking row.branchEval label with
  | none   => stepResult atMs .branchSkipped none (some name)
  | some e =>
    match e.leaf with
    | none   =>
      stepResult atMs .branchSkipped (some (if e.passed then "조건 = 참" else "조건 = 거짓")) (some name)
    | some l =>
      if l.leftUnbound ∧ !isPresence l.op then
        stepResult atMs .fail (some reasonBranchValueMissing) (some name)
      else
        stepResult atMs .branchSkipped (some s!"{targetLabel l.left} = {leafValue l authVars}")
          (some s!"{leafCondition l} · {name}")

-- What is known of a panel before the panels are judged: its step is missing, a row before the step
-- has failed, or neither.
inductive Pre
  | missing
  | cause (row : ℕ)
  | own
  deriving DecidableEq

def PanelConfig.sid (p : PanelConfig) : String :=
  p.stepId.getD ""

section

variable (lib : Engine.Libraries) (toLower : String → String)
variable (scenario : Engine.Scenario) (trace : ScenarioTrace) (atMs : ℤ)

def findHttp (id : String) : Option HttpStep :=
  (collectHttpSteps scenario.steps).find? (·.id = id)

def chainOf (id : String) : List Anc :=
  (ancestors scenario id).getD []

def isRowOf (id : String) (row : StepTrace) : Bool :=
  row.kind = .http && row.stepId = id

-- Where the section before the step of a panel ends.
def sectionEnd (id : String) : ℕ :=
  let first := trace.steps.findIdx? (isRowOf id)
  let excluded := (exclusionRow trace (chainOf scenario id)).map Prod.fst
  (first <|> excluded).getD trace.steps.length

-- Whether a row is a failure that keeps a step from being checked.
def blocks (id : String) (row : StepTrace) : Bool :=
  row.kind = .http && row.error.isSome &&
    !inSiblingBranch (chainOf scenario id) (ancestors scenario row.stepId)

def preOf (p : PanelConfig) : Pre :=
  if (findHttp scenario p.sid).isNone then .missing
  else
    match (trace.steps.take (sectionEnd scenario trace p.sid)).findIdx? (blocks scenario p.sid) with
    | some i => .cause i
    | none   => .own

def frontEnd (p : PanelConfig) : ℕ :=
  if (findHttp scenario p.sid).isNone then 0 else sectionEnd scenario trace p.sid

-- The result of a step that nothing before it has kept from being checked.
def ownResult (panel : PanelConfig) (flowCapSecs limitSecs : ℕ) : CheckResult :=
  let all := collectHttpSteps scenario.steps
  match lastRow trace panel.sid with
  | some row =>
    match row.error with
    | some err =>
      let v := errorVerdict (findHttp scenario panel.sid) row err limitSecs
      stepResult atMs v.1 (some v.2) none
    | none     =>
      (evalConditions lib toLower all panel trace atMs).getD
        { atMs, verdict := .ok, latencyMs := row.response.map TracedResponse.latencyMs
          reason := none, detail := none, display := [] }
  | none     =>
    match exclusionRow trace (chainOf scenario panel.sid) with
    | some (_, row, id, name, label) =>
      branchResult atMs row id name label (authVarNames scenario.steps)
    | none                           =>
      let reason := if trace.truncated then cutReason trace flowCapSecs else reasonCondStepNotRun
      stepResult atMs .fail (some reason) none

def isFailure (v : Verdict) : Bool :=
  v = .fail || v = .configError

section

variable (panels : List PanelConfig) (flowCapSecs : ℕ) (stepLimits : Table String ℕ)

-- The step whose failure has kept a panel from being checked, with the row of the failure.
def causeRow (p : PanelConfig) : Option StepTrace :=
  match preOf scenario trace p with
  | .cause i => trace.steps[i]?
  | _        => none

-- Whether a panel of a step has been judged as a failure.
def causeFailed (cid : String) (out : List (Option CheckResult)) : Bool :=
  (panels.zip out).any fun q => q.1.stepId = some cid && q.2.any fun r => isFailure r.verdict

-- The first of the panels that a step has kept from being checked.
def isFirstBlocked (cid : String) (i : ℕ) : Bool :=
  panels.findIdx? (fun p => (causeRow scenario trace p).any (·.stepId = cid)) = some i

-- The result of a panel, given those of the panels that come before it. If no panel of the step
-- that has failed says so, the first panel that the step has blocked does.
def judgePanel (i : ℕ) (p : PanelConfig) (out : List (Option CheckResult)) : Option CheckResult :=
  match preOf scenario trace p with
  | .missing  => some (stepResult atMs .configError (some reasonLatencyStepMissing) none)
  | .own      =>
    let limit := (stepLimits.lookup p.sid).getD p.timeoutSeconds
    some (ownResult lib toLower scenario trace atMs p flowCapSecs limit)
  | .cause ci => do
    let crow ← trace.steps[ci]?
    let cid := crow.stepId
    let chttp := findHttp scenario cid
    let cname := stepName chttp cid
    if !causeFailed panels cid out && isFirstBlocked scenario trace panels cid i then
      let limit := (stepLimits.lookup cid).getD defaultStepLimitSecs
      let v := errorVerdict chttp crow (crow.error.getD "") limit
      return stepResult atMs v.1 (some reasonUpstream) (some s!"{cname} · {v.2}")
    else
      return stepResult atMs .upstreamFailed (some reasonUpstream) (some s!"{cname}에서 멈춤")

-- The panels with their numbers, in the order of the ends of the sections before them.
def panelOrder : List (PanelConfig × ℕ) :=
  panels.zipIdx.mergeSort fun a b => frontEnd scenario trace a.1 ≤ frontEnd scenario trace b.1

def judgePanels : Option (List (Option CheckResult)) :=
  Filling.fill
    (fun q out => judgePanel lib toLower scenario trace atMs panels flowCapSecs stepLimits q.2 q.1 out)
    Prod.snd (panelOrder scenario trace panels) (List.replicate panels.length none)

def judgeUnit : Option (List CheckResult) :=
  let shown (r : CheckResult) (p : PanelConfig) :=
    { r with display := displayValues lib p trace }
  if trace.error.isSome then
    some (panels.map fun p => shown (stepResult atMs .fail (some reasonTraceError) none) p)
  else do
    let out     ← judgePanels lib toLower scenario trace atMs panels flowCapSecs stepLimits
    let results ← out.mapM id
    return results.zipWith shown panels

end

end

end Monitor
