import Handicap.Engine.Explain
import Handicap.Engine.Runner

open Store (ThinkTime)

-- The trace of a scenario: one pass over its steps, in which every request is shown.
namespace Engine

inductive StepKind
  | http
  | if
  deriving DecidableEq

structure TracedRequest where
  method  : HttpMethod
  url     : String
  headers : Table String String
  body    : Option String

-- The body is shown as bytes.
structure TracedResponse where
  status        : ℕ
  latencyMs     : ℕ
  downloadMs    : Option ℕ
  headers       : Table String String
  setCookies    : List String
  body          : List UInt8
  bodyTruncated : Bool

structure HttpTrace where
  request     : TracedRequest
  response    : Option TracedResponse
  extracted   : Table String String
  unboundVars : List String
  error       : Option String
  timedOut    : Bool

structure StepTrace where
  stepId      : String
  kind        : StepKind
  loopIndex   : Option ℕ
  branch      : Option String
  request     : Option TracedRequest
  response    : Option TracedResponse
  extracted   : Table String String
  unboundVars : List String
  error       : Option String
  branchEval  : List BranchEval
  timedOut    : Bool

structure ScenarioTrace where
  ok        : Bool
  totalMs   : ℕ
  steps     : List StepTrace
  finalVars : Table String String
  truncated : Bool
  error     : Option String

structure RowTrace where
  rowIndex : ℕ
  trace    : ScenarioTrace

structure RowsTrace where
  ok        : Bool
  truncated : Bool
  totalMs   : ℕ
  rows      : List RowTrace

def maxTraceBodyBytes : ℕ :=
  1024 * 1024

def millis (seconds : ℚ) : ℕ :=
  min ⌊seconds * 1000⌋.toNat (2 ^ 64 - 1)

section

variable (lib : Libraries) (ctx : TemplateContext)

-- What a request is to be, and the names without a value in it.
structure Prepared where
  request     : TracedRequest
  sent        : HttpRequest
  buildError  : Option String
  unboundVars : List String

structure TracedHeaders where
  shown   : Table String String
  sent    : Table String String
  error   : Option String
  unbound : List String

-- A header that cannot be sent is shown, and the first one is an error.
def traceHeader (headers : TracedHeaders) (field : String × String) : TracedHeaders :=
  let (v, unbound) := renderCollecting field.2 ctx headers.unbound
  let headers := { headers with shown := headers.shown.insert field.1 v, unbound }
  match lib.headerName field.1, lib.headerValue v with
  | .ok name, .ok value => { headers with sent := headers.sent.insert name value }
  | _, _                =>
    { headers with error := headers.error.or (some s!"invalid header {field.1}") }

def traceFields : List (String × String) → List String → List (String × String) × List String
  | [], unbound               => ([], unbound)
  | (k, v) :: fields, unbound =>
    let (v, unbound) := renderCollecting v ctx unbound
    let (fields, unbound) := traceFields fields unbound
    ((k, v) :: fields, unbound)

def traceBody (unbound : List String) : Body → RenderedBody × String × List String
  | .json value  =>
    let (value, unbound) := renderJsonCollecting lib.fromStr ctx value unbound
    (.json value, lib.print value, unbound)
  | .form fields =>
    let (fields, unbound) := traceFields ctx fields unbound
    (.form fields, "&".intercalate (fields.map fun field => s!"{field.1}={field.2}"), unbound)
  | .raw text    =>
    let (text, unbound) := renderCollecting text ctx unbound
    (.raw text, text, unbound)

def prepare (step : HttpStep) : Prepared :=
  let (url, unbound) := renderCollecting step.request.url ctx []
  let headers := step.request.headers.foldl (traceHeader lib ctx) ⟨∅, ∅, none, unbound⟩
  let body := step.request.body.map (traceBody lib ctx headers.unbound)
  let unbound := (body.map fun b => b.2.2).getD headers.unbound
  let timeout := step.timeoutSeconds.filter (0 < ·)
  { request     := ⟨step.request.method, url, headers.shown, body.map fun b => b.2.1⟩
    sent        := ⟨step.request.method, url, headers.sent, timeout, body.map Prod.fst⟩
    buildError  := headers.error
    unboundVars := unbound.eraseDups }

def traceResponse (step : HttpStep) (prepared : Prepared) (timedOut : Bool) (exchange : Exchange) :
    HttpTrace :=
  let trace : HttpTrace := ⟨prepared.request, none, ∅, prepared.unboundVars, none, timedOut⟩
  match exchange.outcome with
  | .error e => { trace with error := some (prepared.buildError.getD e.message) }
  | .ok resp =>
    let headers := resp.headers.foldl (fun headers h => headers.insert h.1 h.2) ∅
    let response : TracedResponse :=
      ⟨resp.status, millis exchange.latency, none, headers, resp.setCookies, [], false⟩
    match resp.body with
    | .error e =>
      { trace with response := some response, error := some s!"read body: {e}" }
    | .ok body =>
      let response :=
        { response with
          downloadMs    := some (millis resp.download)
          body          := body.take maxTraceBodyBytes
          bodyTruncated := maxTraceBodyBytes < body.length }
      let trace := { trace with response := some response, timedOut := false }
      match prepared.buildError.or (checkAssertions resp.status step.assertions) with
      | some error => { trace with error := some error }
      | none       =>
        match evaluate lib step.extract ⟨resp.status, resp.headers, resp.setCookies, body⟩ with
        | .ok extracted => { trace with extracted := extracted }
        | .error e      => { trace with error := some (e.display lib.debug) }

mutual

-- The names without a value in a condition, which are looked for in all of its leaves.
def Condition.unbound : Condition → List String → List String
  | .all conditions, unbound        => unboundIn conditions unbound
  | .any conditions, unbound        => unboundIn conditions unbound
  | .compare left op right, unbound =>
    let unbound := (renderCollecting left ctx unbound).2
    match right with
    | none       => unbound
    | some right =>
      if op ≠ .exists ∧ op ≠ .empty then (renderCollecting right ctx unbound).2 else unbound

def unboundIn : List Condition → List String → List String
  | [], unbound                 => unbound
  | cond :: conditions, unbound => unboundIn conditions (cond.unbound unbound)

end

def collectIfConditionUnbound (cond : Condition) (elifs : List (Condition × List Step)) :
    List String :=
  (unboundIn ctx (elifs.map Prod.fst) (cond.unbound ctx [])).eraseDups

end

-- The knobs, and what comes from outside: the answers and the generated values, which have places
-- of their own, and the times that are read off the clock, which have numbers. Where there is no
-- limit on the requests, all that the scenario calls for is traced.
structure Tracing where
  lib            : Libraries
  env            : Table String String
  maxRequests    : Option ℕ
  maxWall        : ℚ
  applyThinkTime : Bool
  clientError    : Option String
  exchange       : List ℕ → HttpRequest → Exchange
  timedOut       : ℕ → Bool
  generated      : List ℕ → GenSpec → String
  now            : ℕ → ℚ

def Step.id : Step → String
  | .http step           => step.id
  | .loop id _ _ _       => id
  | .ifStep id _ _ _ _ _ => id
  | .parallel id _ _     => id

-- What a trace has come to, be it a step, an iteration of a loop, or a row of the dataset.
inductive Visit
  | step (id : String) (loopIndex : Option ℕ)
  | iteration (id : String) (i : ℕ)
  | row (rowIndex : ℕ)
  deriving DecidableEq

-- The variables are those of the pass, or those of a branch of a parallel step. So is the path, on
-- which the turn counts the requests and the parallel steps.
structure TraceState where
  steps     : List StepTrace
  requests  : ℕ
  truncated : Bool
  iterId    : ℕ
  vars      : Table String String
  req       : Option ReqGen
  path      : List ℕ
  turn      : ℕ
  tick      : ℕ
  visits    : List Visit

namespace TraceState

variable (s : TraceState)

def place : List ℕ :=
  s.turn :: s.path

def look : TraceState :=
  { s with tick := s.tick + 1 }

def turned : TraceState :=
  { s with turn := s.turn + 1 }

def truncate : TraceState :=
  { s with truncated := true }

def visit (v : Visit) : TraceState :=
  { s with visits := s.visits ++ [v] }

def push (row : StepTrace) : TraceState :=
  { s with steps := s.steps ++ [row] }

-- A request has been sent.
def spend : TraceState :=
  { s.turned with requests := s.requests + 1 }

def insert (entries : List (String × String)) : TraceState :=
  { s with vars := entries.foldl (fun vars e => vars.insert e.1 e.2) s.vars }

def merge (entries : List (String × String)) : TraceState :=
  { s.insert entries with req := s.req.map (·.markWritten (entries.map Prod.fst)) }

-- The state within a branch, which has variables of its own.
def within (vars : Table String String) (req : Option ReqGen) (path : List ℕ) (turn : ℕ) :
    TraceState :=
  { s with vars := vars, req := req, path := path, turn := turn }

-- What a branch has extracted is merged under its name.
def join (name : String) (outputs : List String) (branch : TraceState) : TraceState :=
  (branch.within s.vars s.req s.path s.turn).merge
    (outputs.filterMap fun k => (branch.vars.lookup k).map fun v => (s!"{name}.{k}", v))

end TraceState

namespace Tracing

variable (t : Tracing)

def deadline : ℚ :=
  t.now 0 + t.maxWall

def isLate (s : TraceState) : Bool :=
  t.deadline ≤ t.now s.tick

def isSpent (s : TraceState) : Bool :=
  t.maxRequests.any (· ≤ s.requests) || t.isLate s

-- The budget is looked at first.
def guarded (s : TraceState) (k : TraceState → TraceState) : TraceState :=
  if s.truncated then s else if t.isSpent s.look then s.look.truncate else k s.look

def context (loopIndex : Option ℕ) (s : TraceState) : TemplateContext :=
  ⟨s.vars, t.env, 0, s.iterId, loopIndex⟩

-- How long a think time is shows on the clock only.
def think (thinkTime : Option ThinkTime) (s : TraceState) : TraceState :=
  if t.applyThinkTime ∧ thinkTime.isSome then
    if t.isLate s.look then s.look.truncate else s.look
  else s

def traceHttp (step : HttpStep) (loopIndex : Option ℕ) (defaultThink : Option ThinkTime)
    (s : TraceState) : TraceState :=
  let generate i := t.generated (i :: s.place)
  let s := s.insert ((s.req.map fun rg => rg.refreshed generate step.id).getD [])
  let prepared := prepare t.lib (t.context loopIndex s) step
  let h := traceResponse t.lib step prepared (t.timedOut s.tick) (t.exchange s.place prepared.sent)
  let row : StepTrace :=
    { stepId := step.id, kind := .http, loopIndex, branch := none, request := some h.request,
      response := h.response, extracted := h.extracted, unboundVars := h.unboundVars,
      error := h.error, branchEval := [], timedOut := h.timedOut }
  t.think (step.thinkTime.or defaultThink) ((s.merge h.extracted.toList).spend.push row)

-- The iterations of a loop, from the given one on.
def traceRounds (id : String) (body : ℕ → TraceState → TraceState) :
    ℕ → ℕ → TraceState → TraceState
  | 0, _, s     => s
  | n + 1, i, s =>
    t.guarded s fun s => traceRounds id body n (i + 1) (body i (s.visit (.iteration id i)))

-- The row of an if step.
def decision (id : String) (loopIndex : Option ℕ) (taken : Taken) (cond : Condition)
    (elifs : List (Condition × List Step)) (ctx : TemplateContext) : StepTrace :=
  { stepId := id, kind := .if, loopIndex, branch := some taken.label, request := none,
    response := none, extracted := ∅, unboundVars := collectIfConditionUnbound ctx cond elifs,
    error := none, branchEval := explainBranches t.lib ctx cond elifs, timedOut := false }

mutual

def traceStep : Step → Option ℕ → Option ThinkTime → TraceState → TraceState
  | .http step, loopIndex, defaultThink, s     => t.traceHttp step loopIndex defaultThink s
  | .loop id _ repeats body, _, defaultThink, s =>
    t.traceRounds id (fun i s => traceSteps body (some i) defaultThink s) repeats 0 s
  | .ifStep id _ cond thenSteps elifs elseSteps, loopIndex, defaultThink, s =>
    let ctx := t.context loopIndex s
    let taken := selectBranch t.lib ctx cond elifs elseSteps
    let s := s.push (t.decision id loopIndex taken cond elifs ctx)
    match taken with
    | .thenBranch => traceSteps thenSteps loopIndex defaultThink s
    | .elif j     => traceElif elifs j loopIndex defaultThink s
    | _           => traceSteps elseSteps loopIndex defaultThink s
  | .parallel _ _ branches, loopIndex, _, s    =>
    (traceBranches branches 0 s.vars s.req loopIndex s).turned

def traceSteps : List Step → Option ℕ → Option ThinkTime → TraceState → TraceState
  | [], _, _, s                               => s
  | step :: steps, loopIndex, defaultThink, s =>
    t.guarded s fun s =>
      traceSteps steps loopIndex defaultThink
        (traceStep step loopIndex defaultThink (s.visit (.step step.id loopIndex)))

def traceElif : List (Condition × List Step) → ℕ → Option ℕ → Option ThinkTime → TraceState →
    TraceState
  | [], _, _, _, s                                 => s
  | (_, steps) :: _, 0, loopIndex, defaultThink, s =>
    traceSteps steps loopIndex defaultThink s
  | _ :: elifs, j + 1, loopIndex, defaultThink, s  =>
    traceElif elifs j loopIndex defaultThink s

-- Branches are traced one after the other, all from what there is at the fork. A branch is merged
-- even where it has been cut.
def traceBranches : List (String × List Step) → ℕ → Table String String → Option ReqGen →
    Option ℕ → TraceState → TraceState
  | [], _, _, _, _, s                                      => s
  | (name, steps) :: branches, b, entry, req, loopIndex, s =>
    if s.truncated then s
    else
      let branch := traceSteps steps loopIndex none (s.within entry req (b :: s.place) 0)
      traceBranches branches (b + 1) entry req loopIndex
        (s.join name (collectOutputVarNames steps) branch)

end

-- A pass begins with its own variables, at places of its own. The requests of the passes before it
-- count.
def enter (scenario : Scenario) (seedVars : Table String String) (iterId : ℕ) (s : TraceState) :
    TraceState :=
  let path := [s.tick]
  let vars := seedIterVars (fun i => t.generated (i :: path)) scenario.varDecls
  let req := (RequestGenPlan.build t.lib.fromStr scenario).map ReqGen.new
  let fresh : TraceState :=
    { s.look with steps := [], truncated := false, iterId, vars, req, path, turn := 0 }
  fresh.merge seedVars.toList

def traceOnce (scenario : Scenario) (seedVars : Table String String) (iterId : ℕ)
    (s : TraceState) : ScenarioTrace × TraceState :=
  let r := t.traceSteps scenario.steps none scenario.defaultThinkTime
    (t.enter scenario seedVars iterId s)
  ({ ok        := r.steps.all fun row => row.error.isNone
     totalMs   := millis (t.now r.tick - t.now s.tick)
     steps     := r.steps
     finalVars := r.vars
     truncated := r.truncated
     error     := none }, r)

def start : TraceState where
  steps     := []
  requests  := 0
  truncated := false
  iterId    := 0
  vars      := ∅
  req       := none
  path      := []
  turn      := 0
  tick      := 1
  visits    := []

def traceScenarioWithSeed (scenario : Scenario) (seedVars : Table String String) : ScenarioTrace :=
  match t.clientError with
  | some e => ⟨false, 0, [], ∅, false, some s!"http client build: {e}"⟩
  | none   => (t.traceOnce scenario seedVars 0 start).1

-- The passes over the rows from the given one on, and whether they have been cut.
def traceRows (scenario : Scenario) :
    List (ℕ × Table String String) → ℕ → TraceState → List RowTrace × Bool × TraceState
  | [], _, s                        => ([], false, s)
  | (rowIndex, seed) :: rows, i, s =>
    if t.isSpent s.look then ([], true, s.look)
    else
      let (trace, s) := t.traceOnce scenario seed (i % 2 ^ 32) (s.look.visit (.row rowIndex))
      if trace.truncated then ([⟨rowIndex, trace⟩], true, s)
      else
        let (traces, truncated, s) := traceRows scenario rows (i + 1) s
        (⟨rowIndex, trace⟩ :: traces, truncated, s)

def traceScenarioRows (scenario : Scenario) (seededRows : List (ℕ × Table String String)) :
    RowsTrace :=
  match t.clientError with
  | some _ => ⟨false, false, 0, []⟩
  | none   =>
    let (rows, truncated, s) := t.traceRows scenario seededRows 0 start
    { ok        := !truncated && rows.all fun row => row.trace.ok
      truncated := truncated
      totalMs   := millis (t.now s.tick - t.now 0)
      rows      := rows }

end Tracing

end Engine
