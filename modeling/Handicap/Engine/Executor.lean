import Handicap.Engine.Aggregator
import Handicap.Engine.Extract
import Mathlib.Data.Rat.Floor

-- HTTP steps: their requests, and what becomes of them.
namespace Engine

-- The client of a VU, whose times are in seconds.
structure VuClient where
  timeout       : ℚ
  measurePhases : Bool

inductive RenderedBody
  | json (value : Json)
  | form (fields : List (String × String))
  | raw (text : String)

structure HttpRequest where
  method  : HttpMethod
  url     : String
  headers : Table String String
  timeout : Option ℕ
  body    : Option RenderedBody

structure SendError where
  message : String
  kind    : ErrorKind

-- The body is read until its end, or until an error.
structure HttpResponse where
  status     : ℕ
  headers    : List (String × String)
  setCookies : List String
  download   : ℚ
  body       : Except String (List UInt8)

-- What becomes of a request, and the time until then. New connections take some of it.
structure Exchange where
  latency        : ℚ
  connectTotalUs : ℕ
  dnsUs          : ℕ
  outcome        : Except SendError HttpResponse

structure ExecOutcome where
  stepId    : String
  status    : ℕ
  latency   : ℚ
  download  : Option ℚ
  dns       : Option ℕ
  connect   : Option ℕ
  wait      : Option ℕ
  error     : Option String
  errorKind : Option ErrorKind
  extracted : Table String String

def micros (seconds : ℚ) : ℕ :=
  min ⌊seconds * 1000000⌋.toNat (2 ^ 64 - 1)

def EngineError.display (debug : String → String) : EngineError → String
  | .scenarioParse message            => s!"scenario parse: {message}"
  | .unknownVar name                  => s!"template: unknown variable {name}"
  | .malformedTemplate near           => s!"template: malformed expression near '{near}'"
  | .http message                     => s!"http: {message}"
  | .allVusFailed failed total cause  =>
    s!"all VUs failed ({failed}/{total})" ++ (cause.map fun c => ": " ++ c).getD ""
  | .histogram message                => s!"histogram: {message}"
  | .io message                       => s!"io: {message}"
  | .extractFailed message            => s!"extract failed: {message}"
  | .castFailed var cast value        =>
    s!"template: cannot cast {var} value " ++ debug value ++ s!" to {cast}"
  | .aborted                          => "aborted"

variable (lib : Libraries) (ctx : TemplateContext)

def renderHeaders : List (String × String) → Table String String →
    Except EngineError (Table String String)
  | [], headers           => .ok headers
  | (k, v) :: fields, headers => do
    let v ← render v ctx
    match lib.headerName k with
    | .error e => .error (.malformedTemplate s!"header name {k}: {e}")
    | .ok name =>
      match lib.headerValue v with
      | .error e  => .error (.malformedTemplate s!"header value {k}: {e}")
      | .ok value => renderHeaders fields (headers.insert name value)

def renderFields : List (String × String) → Except EngineError (List (String × String))
  | []               => .ok []
  | (k, v) :: fields => do
    let v ← render v ctx
    return (k, v) :: (← renderFields fields)

def renderBody : Body → Except EngineError RenderedBody
  | .json value  => do return .json (← renderJsonValue lib.fromStr ctx value)
  | .form fields => do return .form (← renderFields ctx fields)
  | .raw text    => do return .raw (← render text ctx)

def buildRequest (step : HttpStep) : Except EngineError HttpRequest := do
  let url ← render step.request.url ctx
  let headers ← renderHeaders lib ctx step.request.headers ∅
  let body ←
    match step.request.body with
    | none      => pure none
    | some body => do pure (some (← renderBody lib ctx body))
  return ⟨step.request.method, url, headers, step.timeoutSeconds.filter (0 < ·), body⟩

-- The first assertion that does not hold.
def checkAssertions (status : ℕ) : List Assertion → Option String
  | []                         => none
  | .status want :: assertions =>
    if want ≠ status then some s!"status {status} != {want}"
    else checkAssertions status assertions

def respond (step : HttpStep) (measurePhases : Bool) (exchange : Exchange) : ExecOutcome :=
  match exchange.outcome with
  | .error e =>
    { stepId := step.id, status := 0, latency := exchange.latency, download := none, dns := none,
      connect := none, wait := none, error := some e.message, errorKind := some e.kind,
      extracted := ∅ }
  | .ok resp =>
    let isNew := measurePhases ∧ 0 < exchange.connectTotalUs
    let outcome : ExecOutcome :=
      { stepId := step.id, status := resp.status, latency := exchange.latency, download := none,
        dns := if isNew then some exchange.dnsUs else none,
        connect := if isNew then some (exchange.connectTotalUs - exchange.dnsUs) else none,
        wait :=
          if measurePhases then some (micros exchange.latency - exchange.connectTotalUs) else none,
        error := none, errorKind := none, extracted := ∅ }
    match resp.body with
    | .error e => { outcome with error := some s!"read body: {e}" }
    | .ok body =>
      let outcome := { outcome with download := some resp.download }
      match checkAssertions resp.status step.assertions with
      | some error => { outcome with error := some error }
      | none       =>
        match evaluate lib step.extract ⟨resp.status, resp.headers, resp.setCookies, body⟩ with
        | .ok extracted => { outcome with extracted := extracted }
        | .error e      => { outcome with error := some (e.display lib.debug) }

-- The time from sending a request until the end of what becomes of it.
def Exchange.duration (exchange : Exchange) : ℚ :=
  match exchange.outcome with
  | .error _ => exchange.latency
  | .ok resp => exchange.latency + resp.download

-- The names that a request refers to, out of those of an index, as their numbers in order. The
-- environment has the names as well, so that they are missing as variables only.
def requestFlowRefs (fromStr : String → Option Json) (request : Request)
    (dummyEnv : Table String String) (index : String → Option ℕ) (count : ℕ) : List ℕ :=
  let ctx : TemplateContext := ⟨∅, dummyEnv, 0, 0, some 0⟩
  let unbound := (renderCollecting request.url ctx []).2
  let collectFields (fields : List (String × String)) (unbound : List String) : List String :=
    fields.foldl (fun unbound field => (renderCollecting field.2 ctx unbound).2) unbound
  let unbound := collectFields request.headers unbound
  let unbound :=
    match request.body with
    | some (.json value)  => (renderJsonCollecting fromStr ctx value unbound).2
    | some (.form fields) => collectFields fields unbound
    | some (.raw text)    => (renderCollecting text ctx unbound).2
    | none                => unbound
  (List.range count).filter fun i => i ∈ unbound.filterMap index

end Engine
