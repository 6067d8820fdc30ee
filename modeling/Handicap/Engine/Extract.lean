import Handicap.Engine.Condition

-- The extraction of variables from responses.
namespace Engine

structure ResponseFacts where
  status     : ℕ
  headers    : List (String × String)
  setCookies : List String
  body       : List UInt8

def eqIgnoreAsciiCase (s t : List Char) : Bool :=
  s.map Char.toLower = t.map Char.toLower

def trimmedChars (s : String) : List Char :=
  Text.strip Store.isWhiteSpace s.toList

def parseCookieValue (setCookie name : String) : Option String :=
  match Text.cut ['='] (trimmedChars (.ofList (setCookie.toList.takeWhile (· ≠ ';')))) with
  | some (k, v) => if trimmed k = name then some (trimmed v) else none
  | none        => none

-- The text of a decoded value, or whether it is not in Base64 or not text.
inductive Base64TextError
  | notBase64
  | notUtf8
  deriving DecidableEq

def decodeBase64Text (base64 : (urlSafe : Bool) → String → Option (List UInt8)) (s : String) :
    Except Base64TextError String :=
  let t := (trimmedChars s).rdropWhile (· = '=')
  let urlSafe := t.any fun c => c = '-' ∨ c = '_'
  let standard := t.any fun c => c = '+' ∨ c = '/'
  if urlSafe ∧ standard then .error .notBase64
  else
    match base64 urlSafe (.ofList t) with
    | none       => .error .notBase64
    | some bytes =>
      match Utf8.decode bytes with
      | none      => .error .notUtf8
      | some text => .ok (.ofList text)

-- The payload of a token, after the word that may come before it.
def jwtPayload (s : String) : Option String :=
  let t := trimmedChars s
  let t :=
    if eqIgnoreAsciiCase (t.take 7) "bearer ".toList then (t.drop 7).dropWhile Store.isWhiteSpace
    else t
  match t.splitOn '.' with
  | [_, payload, _] => some (.ofList payload)
  | _               => none

variable (lib : Libraries)

def jsonpathFirst (json : Json) (path : String) : Option Json :=
  (lib.jsonPath path).bind fun query => (query json).head?

def stringify : Json → String
  | .string s => s
  | .null     => ""
  | .bool b   => toString b
  | json      => lib.print json

def postProcess (var raw : String) (decode : Option Decode) (claim : Option String) :
    Except EngineError String := do
  let fail {α : Type} (reason : String) : Except EngineError α :=
    .error (.extractFailed s!"{var}: {reason}")
  match decode with
  | none        => if claim.isSome then fail "claim requires decode" else return raw
  | some decode =>
    let segment ←
      match decode, jwtPayload raw with
      | .base64, _         => pure raw
      | .jwt, some payload => pure payload
      | .jwt, none         => fail "not a JWT (expected 3 segments)"
    let text ←
      match decodeBase64Text lib.base64 segment with
      | .ok text          => pure text
      | .error .notBase64 => fail "not base64"
      | .error .notUtf8   => fail "not UTF-8 text"
    if decode = .base64 ∧ claim = none then return text
    let json ← (lib.fromStr text).elim (fail "decoded value is not JSON") pure
    match claim with
    | none       => return text
    | some claim =>
      let query ← (lib.jsonPath claim).elim (fail s!"invalid claim path: {claim}") pure
      let first ← (query json).head?.elim (fail s!"claim not found: {claim}") pure
      return stringify lib first

-- The variable of an extract with its value.
def evaluateOne (facts : ResponseFacts) : Extract → Except EngineError (String × String)
  | .body var path decode claim   => do
    let json ←
      match lib.fromSlice facts.body with
      | .ok json => pure json
      | .error e => .error (.extractFailed s!"body not JSON: {e}")
    let value ← (jsonpathFirst lib json path).elim (.error (.extractFailed s!"no match: {path}")) pure
    return (var, ← postProcess lib var (stringify lib value) decode claim)
  | .header var name decode claim => do
    let found := facts.headers.find? fun h => eqIgnoreAsciiCase h.1.toList name.toList
    let value ← found.elim (.error (.extractFailed s!"no header: {name}")) fun h => pure h.2
    return (var, ← postProcess lib var value decode claim)
  | .cookie var name decode claim => do
    let found := facts.setCookies.findSome? fun setCookie => parseCookieValue setCookie name
    let value ← found.elim (.error (.extractFailed s!"no cookie: {name}")) pure
    return (var, ← postProcess lib var value decode claim)
  | .status var                   => .ok (var, toString facts.status)

-- The first extract that fails is the error of all.
def evaluate (extracts : List Extract) (facts : ResponseFacts) :
    Except EngineError (Table String String) :=
  extracts.foldlM (fun out e => do
    let (var, value) ← evaluateOne lib facts e
    return out.insert var value) ∅

end Engine
