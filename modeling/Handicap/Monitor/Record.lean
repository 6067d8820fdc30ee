import Handicap.Engine.Trace
import Handicap.Library.Word
import Handicap.Monitor.Config

open Engine (TracedRequest)
open Store (isWhiteSpace)

-- The records of checks, whose secrets are masked and whose bodies are kept up to a limit. Where
-- the program would panic there is no result.
namespace Monitor

inductive ClipSide
  | request
  | response
  deriving DecidableEq

-- A body that has been cut, by the place of its step in the trace.
structure Clipped where
  step : ℕ
  side : ClipSide
  deriving DecidableEq

structure TracedResponse where
  status        : ℕ
  latencyMs     : ℕ
  downloadMs    : Option ℕ
  headers       : Table String String
  setCookies    : List String
  body          : String
  bodyTruncated : Bool

structure StepTrace where
  stepId      : String
  kind        : Engine.StepKind
  loopIndex   : Option ℕ
  branch      : Option String
  request     : Option TracedRequest
  response    : Option TracedResponse
  extracted   : Table String String
  unboundVars : List String
  error       : Option String
  branchEval  : List Engine.BranchEval
  timedOut    : Bool

structure ScenarioTrace where
  ok        : Bool
  totalMs   : ℕ
  steps     : List StepTrace
  finalVars : Table String String
  truncated : Bool
  error     : Option String

structure RecordBody where
  limitKb : UInt32
  trace   : Option ScenarioTrace
  clipped : List Clipped

-- A URL as the client reads it.
structure ParsedUrl where
  text     : String
  username : String
  password : Option String

def mask : List Char :=
  ['•', '•', '•', '•']

def maskUrlEncoded : String :=
  "%E2%80%A2%E2%80%A2%E2%80%A2%E2%80%A2"

def isBlank (l : List Char) : Bool :=
  l.all isWhiteSpace

-- What comes up to the first blank is the scheme.
def maskAuthorization (v : List Char) : List Char :=
  match Text.cut [' '] v with
  | some (scheme, rest) => if isBlank rest then v else scheme ++ ' ' :: mask
  | none                => if isBlank v then v else mask

def maskPair (pair : List Char) : List Char :=
  match Text.cut ['='] pair with
  | some (name, value) => if isBlank value then pair else name ++ '=' :: mask
  | none               => if isBlank pair then pair else pair.takeWhile isWhiteSpace ++ mask

def maskCookie (v : List Char) : List Char :=
  [';'].intercalate ((v.splitOn ';').map maskPair)

-- The attributes are dropped.
def maskSetCookie (v : List Char) : List Char :=
  let head := v.takeWhile (· ≠ ';')
  match Text.cut ['='] head with
  | some (name, value) => if isBlank value then name ++ ['='] else name ++ '=' :: mask
  | none               => if isBlank v then v else if isBlank head then head else mask

def maskHeader (name value : String) : String :=
  match authHeaders.find? (· = (trim name).toLower) with
  | none              => value
  | some "cookie"     => .ofList (maskCookie value.toList)
  | some "set-cookie" => .ofList (maskSetCookie value.toList)
  | some _            => .ofList (maskAuthorization value.toList)

def maskUserinfo (userinfo : List Char) : Option (List Char) :=
  match Text.cut [':'] userinfo with
  | some ([], [])         => none
  | some (_, [])          => some (mask ++ [':'])
  | some (username, _)    => some (username ++ ':' :: mask)
  | none                  => if userinfo = [] then none else some mask

-- What comes before the last at sign of the authority is masked in the text as it is.
def spliceUrlUserinfo (url : List Char) : List Char :=
  let masked := do
    let (scheme, rest) ← Text.cut [':', '/', '/'] url
    let authority := rest.takeWhile (· ∉ ['/', '?', '#'])
    let (userinfo, host) ← Engine.rsplitOnce '@' authority
    let userinfo ← maskUserinfo userinfo
    return scheme ++ [':', '/', '/'] ++ userinfo ++ '@' :: host ++ rest.drop authority.length
  masked.getD url

-- Where there is no password, the name is the credential.
def ParsedUrl.hasLiveCredentials (url : ParsedUrl) : Bool :=
  match url.password.filter (· ≠ "") with
  | some password => password ≠ maskUrlEncoded
  | none          => url.username ≠ "" ∧ url.username ≠ maskUrlEncoded

section

variable (parseUrl : String → Option ParsedUrl)

-- What the client still reads as a credential is masked in the text that it has normalized.
def maskUrlUserinfo (url : String) : String :=
  let spliced := String.ofList (spliceUrlUserinfo url.toList)
  match (parseUrl spliced).filter (·.hasLiveCredentials) with
  | none        => spliced
  | some parsed =>
    let again := String.ofList (spliceUrlUserinfo parsed.text.toList)
    if (parseUrl again).any (!·.hasLiveCredentials) then again else .ofList mask

def maskRequest (req : TracedRequest) : TracedRequest :=
  { req with headers := req.headers.mapValues maskHeader, url := maskUrlUserinfo parseUrl req.url }

def maskResponse (resp : TracedResponse) : TracedResponse :=
  { resp with
    headers    := resp.headers.mapValues maskHeader
    setCookies := resp.setCookies.map fun c => .ofList (maskSetCookie c.toList) }

-- The last boundary of the text that is no later than the cut.
def walkBack (bytes : List UInt8) : ℕ → Option ℕ
  | 0       => if Utf8.isBoundary bytes 0 then some 0 else none
  | cut + 1 => if Utf8.isBoundary bytes (cut + 1) then some (cut + 1) else walkBack bytes cut

-- The body that is kept, the budget that is left, and whether the body has been cut.
def clipBody (body : String) (budget : ℕ) : Option (String × ℕ × Bool) :=
  let bytes := Utf8.encode body.toList
  if bytes.length ≤ budget then do
    let budget ← Word.checkedSub budget bytes.length
    return (body, budget, false)
  else do
    let cut ← walkBack bytes budget
    let kept ← Utf8.slice bytes 0 cut
    let budget ← Word.checkedSub budget cut
    return (.ofList kept, budget, true)

def clipOption {α : Type} (clip : α → ℕ → Option (α × ℕ × Bool)) (a : Option α) (budget : ℕ) :
    Option (Option α × ℕ × Bool) :=
  match a with
  | none   => some (none, budget, false)
  | some a => (clip a budget).map fun c => (some c.1, c.2)

def clipRequest (req : TracedRequest) (budget : ℕ) : Option (TracedRequest × ℕ × Bool) := do
  let (body, budget, cut) ← clipOption clipBody req.body budget
  return ({ maskRequest parseUrl req with body }, budget, cut)

def clipResponse (resp : TracedResponse) (budget : ℕ) : Option (TracedResponse × ℕ × Bool) := do
  let (body, budget, cut) ← clipBody resp.body budget
  return ({ maskResponse resp with body }, budget, cut)

-- The step with the budget that is left and with the sides that have been cut. A place that has no
-- number of 32 bits is the last one.
def recordStep (i : ℕ) (s : StepTrace) (budget : ℕ) :
    Option (StepTrace × ℕ × List Clipped) := do
  let step := (Word.checkedCast 32 i).getD (2 ^ 32 - 1)
  let (request, budget, cutRequest) ← clipOption (clipRequest parseUrl) s.request budget
  let (response, budget, cutResponse) ← clipOption clipResponse s.response budget
  let clipped := (if cutRequest then [⟨step, .request⟩] else []) ++
    if cutResponse then [⟨step, .response⟩] else []
  return ({ s with request, response, extracted := ∅, branchEval := [] }, budget, clipped)

def recordSteps : ℕ → List StepTrace → ℕ → Option (List StepTrace × List Clipped)
  | _, [], _          => some ([], [])
  | i, s :: l, budget => do
    let (s, budget, clipped) ← recordStep parseUrl i s budget
    let (l, rest) ← recordSteps (i + 1) l budget
    return (s :: l, clipped ++ rest)

def buildRecordBody (trace : Option ScenarioTrace) (limitKb : UInt32) : Option RecordBody :=
  match trace with
  | none   => some ⟨limitKb, none, []⟩
  | some t => do
    let budget ← Word.checkedMul 64 limitKb.toNat 1024
    let (steps, clipped) ← recordSteps parseUrl 0 t.steps budget
    return ⟨limitKb, some { t with steps, finalVars := ∅ }, clipped⟩

end

end Monitor
