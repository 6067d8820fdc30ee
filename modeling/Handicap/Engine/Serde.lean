import Handicap.Engine.Scenario
import Handicap.Library.KeyOrder
import Mathlib.Data.String.Basic

open Store (ThinkTime U32)

-- Scenarios as value trees, and the value trees that they are read from.
namespace Engine

open Guard (refuse)

-- The numbers of the types that are written fit into the integers of a tree.
def YamlInt.ofInt (n : ℤ) : YamlInt where
  val := max (-2 ^ 63) (min n (2 ^ 64 - 1))
  lo  := by omega
  hi  := by omega

def Yaml.ofNat (n : ℕ) : Yaml :=
  .int (.ofInt n)

-- A field that is left out if there is no value.
def entry {α : Type} (key : String) (o : Option α) (serialize : α → Yaml) : List (String × Yaml) :=
  o.toList.map fun a => (key, serialize a)

-- A value that is left out if it says nothing.
def skipIf {α : Type} (skip : α → Bool) (a : α) : Option α :=
  if skip a then none else some a

def serializeRows (rows : List (String × String)) : Yaml :=
  .mapping (rows.map fun row => (row.1, .string row.2))

def invalid {α : Type} : Except GenError α :=
  .error (.custom "invalid type")

-- A value tree has every key once.
def fields (entries : List (String × Yaml)) : Except GenError Mapping :=
  if h : (entries.map Prod.fst).Nodup then .ok ⟨entries, h⟩ else .error (.custom "duplicate entry")

def Yaml.fields : Yaml → Except GenError Mapping
  | .mapping entries => Engine.fields entries
  | _                => invalid

def deserializeString (y : Yaml) : Except GenError String :=
  (readString y).elim invalid .ok

def sequence {α : Type} (read : Yaml → Except GenError α) : Yaml → Except GenError (List α)
  | .sequence items => items.mapM read
  | _               => invalid

-- A map of texts, in which the last value of a key counts.
def deserializeRows : Yaml → Except GenError (List (String × String))
  | .mapping entries => do
    let rows ← entries.mapM fun e => return (e.1, ← deserializeString e.2)
    return KeyOrder.ofList rows
  | _                => invalid

def readU16 : Yaml → Option ℕ
  | .int n => if 0 ≤ n.val ∧ n.val < 2 ^ 16 then some n.val.toNat else none
  | _      => none

def readWord (y : Yaml) : Option U32 :=
  (readU32 y).bind fun n => if h : n < 2 ^ 32 then some ⟨n, h⟩ else none

-- One of the names of an enumeration.
def variant {α : Type} (names : List (String × α)) : Yaml → Except GenError α
  | .string s => (names.lookup s).elim (.error (.custom s!"unknown variant: {s}")) .ok
  | _         => invalid

section

variable (m : Mapping) (key : String)

def denyUnknown (allowed : List String) : Except GenError Unit :=
  m.keys.forM fun key => refuse (key ∉ allowed) (GenError.unknownField key)

def field {α : Type} (read : Yaml → Except GenError α) : Except GenError α :=
  match m.get key with
  | none   => .error (.missingField key)
  | some y => read y

-- A field that may be left out or be null.
def orNull {α : Type} (read : Yaml → Except GenError α) : Except GenError (Option α) :=
  match m.get key with
  | none       => .ok none
  | some .null => .ok none
  | some y     => (read y).map some

end

-- Declarations of variables.
def Scalar.serialize : Scalar → Yaml
  | .null     => .null
  | .bool b   => .bool b
  | .int n    => .int n
  | .float q  => .float q
  | .string s => .string s

def GenSpec.serializeEntries : GenSpec → List (String × Yaml)
  | .date g              =>
    [("gen", .string "date"), ("format", .string g.format)] ++ entry "offset" g.offset .string ++
      entry "tz" g.tz .string
  | .randomInt g         =>
    [("gen", .string "random_int"), ("min", .int (.ofInt g.min)), ("max", .int (.ofInt g.max))] ++
      entry "step" (skipIf (· = 1) g.step) .ofNat
  | .uuid                => [("gen", .string "uuid")]
  | .randomString length => [("gen", .string "random_string"), ("length", .ofNat length)]
  | .pickArray g         =>
    [("gen", .string "pick_array"), ("length", .ofNat g.length), ("min", .ofNat g.min),
      ("max", .ofNat g.max)] ++ entry "positions" g.positions .string ++
      entry "pick" g.pick Scalar.serialize ++ entry "rest" g.rest Scalar.serialize

def Refresh.serialize : Refresh → Yaml
  | .iteration => .string "iteration"
  | .request   => .string "request"

def VarDecl.serialize : VarDecl → Yaml
  | .static v         => .string v
  | .gen spec refresh => .mapping (spec.serializeEntries ++
    entry "refresh" (skipIf (· = .iteration) refresh) Refresh.serialize)

def VarDecl.deserialize (lib : DeclLib) : Yaml → Except GenError VarDecl
  | .string s        => .ok (.static s)
  | .mapping entries => fields entries >>= VarDecl.visitMap lib
  | _                => invalid

-- Values of JSON.
mutual

def Json.serialize : Json → Yaml
  | .null             => .null
  | .bool b           => .bool b
  | .number (.int n)  => .int n
  | .number (.float q) => .float q
  | .string s         => .string s
  | .array items      => .sequence (serializeItems items)
  | .object map       => .mapping (serializeMembers map)

def serializeItems : List Json → List Yaml
  | []            => []
  | json :: items => json.serialize :: serializeItems items

def serializeMembers : List (String × Json) → List (String × Yaml)
  | []                 => []
  | (key, json) :: map => (key, json.serialize) :: serializeMembers map

end

mutual

-- What a step says is buffered before it is read, and the buffer has no place for a wide integer.
def Yaml.json : Yaml → Except GenError Json
  | .null            => .ok .null
  | .bool b          => .ok (.bool b)
  | .int n           => .ok (.number (.int n))
  | .wide _          => invalid
  | .float q         => .ok (.number (.float q))
  | .string s        => .ok (.string s)
  | .sequence items  => (jsonItems items).map .array
  | .mapping entries => (jsonMembers entries).map fun map => .object (KeyOrder.ofList map)

def jsonItems : List Yaml → Except GenError (List Json)
  | []         => .ok []
  | y :: items => do return (← y.json) :: (← jsonItems items)

def jsonMembers : List (String × Yaml) → Except GenError (List (String × Json))
  | []                  => .ok []
  | (key, y) :: entries => do return (key, ← y.json) :: (← jsonMembers entries)

end

-- Requests.
def HttpMethod.names : List (String × HttpMethod) :=
  [("GET", .get), ("POST", .post), ("PUT", .put), ("PATCH", .patch), ("DELETE", .delete),
    ("HEAD", .head), ("OPTIONS", .options)]

def HttpMethod.name : HttpMethod → String
  | get     => "GET"
  | post    => "POST"
  | put     => "PUT"
  | patch   => "PATCH"
  | delete  => "DELETE"
  | head    => "HEAD"
  | options => "OPTIONS"

def Body.serialize : Body → Yaml
  | .json value  => .mapping [("json", value.serialize)]
  | .form fields => .mapping [("form", serializeRows fields)]
  | .raw text    => .mapping [("raw", .string text)]

def Body.ofEntry (y : Yaml) : String → Except GenError Body
  | "json" => y.json.map .json
  | "form" => (deserializeRows y).map .form
  | "raw"  => (deserializeString y).map .raw
  | other  => .error (.unknownField other)

def Body.deserialize : Yaml → Except GenError Body
  | .mapping []                 => .error (.custom "empty body map")
  | .mapping ((key, y) :: rest) => do
    let body ← Body.ofEntry y key
    refuse (¬rest.isEmpty) (.custom "body map must have exactly one key (json|form|raw)")
    return body
  | _                           => invalid

namespace DisabledRows

def isEmpty (d : DisabledRows) : Bool :=
  d.headers.isEmpty && d.form.isEmpty

def serialize (d : DisabledRows) : Yaml :=
  .mapping (entry "headers" (skipIf List.isEmpty d.headers) serializeRows ++
    entry "form" (skipIf List.isEmpty d.form) serializeRows)

def deserialize (y : Yaml) : Except GenError DisabledRows := do
  let m ← y.fields
  denyUnknown m ["headers", "form"]
  return ⟨(← present m "headers" deserializeRows).getD [],
    (← present m "form" deserializeRows).getD []⟩

end DisabledRows

namespace Request

def serialize (r : Request) : Yaml :=
  .mapping ([("method", .string r.method.name), ("url", .string r.url),
    ("headers", serializeRows r.headers), ("body", (r.body.map Body.serialize).getD .null)] ++
    entry "disabled" (skipIf DisabledRows.isEmpty r.disabled) DisabledRows.serialize)

def deserialize (y : Yaml) : Except GenError Request := do
  let m ← y.fields
  denyUnknown m ["method", "url", "headers", "body", "disabled"]
  return {
    method   := ← field m "method" (variant HttpMethod.names)
    url      := ← field m "url" deserializeString
    headers  := (← present m "headers" deserializeRows).getD []
    body     := ← orNull m "body" Body.deserialize
    disabled := (← present m "disabled" DisabledRows.deserialize).getD ⟨[], []⟩ }

end Request

-- Assertions and extracts.
def Assertion.serialize : Assertion → Yaml
  | .status code => .mapping [("status", .ofNat code)]

def Assertion.deserialize : Yaml → Except GenError Assertion
  | .mapping []                 => .error (.custom "empty assertion map")
  | .mapping ((key, y) :: rest) =>
    match key with
    | "status" => do
      let code ← (readU16 y).elim invalid .ok
      refuse (¬rest.isEmpty) (.custom "unknown field in assertion")
      return .status code
    | other    => .error (.unknownField other)
  | _                           => invalid

def Decode.names : List (String × Decode) :=
  [("base64", .base64), ("jwt", .jwt)]

def Decode.serialize : Decode → Yaml
  | base64 => .string "base64"
  | jwt    => .string "jwt"

-- The three extracts that may decode what they find.
def serializeExtract (source var key value : String) (decode : Option Decode)
    (claim : Option String) : Yaml :=
  .mapping ([("from", .string source), ("var", .string var), (key, .string value)] ++
    entry "decode" decode Decode.serialize ++ entry "claim" claim .string)

def deserializeExtract (m : Mapping) (key : String)
    (extract : String → String → Option Decode → Option String → Extract) :
    Except GenError Extract := do
  denyUnknown m ["from", "var", key, "decode", "claim"]
  return extract (← field m "var" deserializeString) (← field m key deserializeString)
    (← orNull m "decode" (variant Decode.names)) (← optional m "claim" readString)

namespace Extract

def serialize : Extract → Yaml
  | body var path decode claim   => serializeExtract "body" var "path" path decode claim
  | header var name decode claim => serializeExtract "header" var "name" name decode claim
  | cookie var name decode claim => serializeExtract "cookie" var "name" name decode claim
  | status var                   => .mapping [("from", .string "status"), ("var", .string var)]

def deserialize (y : Yaml) : Except GenError Extract := do
  let m ← y.fields
  match ← field m "from" deserializeString with
  | "body"   => deserializeExtract m "path" body
  | "header" => deserializeExtract m "name" header
  | "cookie" => deserializeExtract m "name" cookie
  | "status" => do
    denyUnknown m ["from", "var"]
    return .status (← field m "var" deserializeString)
  | other    => .error (.custom s!"unknown variant: {other}")

end Extract

-- Conditions, whose kind is told by their keys.
def CompareOp.names : List (String × CompareOp) :=
  [("eq", .eq), ("ne", .ne), ("contains", .contains), ("matches", .matches), ("lt", .lt),
    ("gt", .gt), ("lte", .lte), ("gte", .gte), ("exists", .exists), ("empty", .empty)]

def CompareOp.name : CompareOp → String
  | .eq       => "eq"
  | .ne       => "ne"
  | .contains => "contains"
  | .matches  => "matches"
  | .lt       => "lt"
  | .gt       => "gt"
  | .lte      => "lte"
  | .gte      => "gte"
  | .exists   => "exists"
  | .empty    => "empty"

mutual

def Condition.serialize : Condition → Yaml
  | .compare left op right => .mapping ([("left", .string left), ("op", .string op.name)] ++
    entry "right" right .string)
  | .all conditions        => .mapping [("all", .sequence (serializeConditions conditions))]
  | .any conditions        => .mapping [("any", .sequence (serializeConditions conditions))]

def serializeConditions : List Condition → List Yaml
  | []                 => []
  | cond :: conditions => cond.serialize :: serializeConditions conditions

end

structure CondFields where
  left  : Option String
  op    : Option CompareOp
  right : Option String
  all   : Option (List Condition)
  any   : Option (List Condition)

def CondFields.condition (f : CondFields) : Except GenError Condition :=
  match f.all, f.any, f.left with
  | some v, none, none    => do
    refuse (f.op.isSome ∨ f.right.isSome) (.custom "`all` group cannot also have left/op/right")
    return .all v
  | none, some v, none    => do
    refuse (f.op.isSome ∨ f.right.isSome) (.custom "`any` group cannot also have left/op/right")
    return .any v
  | none, none, some left =>
    match f.op with
    | some op => .ok (.compare left op f.right)
    | none    => .error (.missingField "op")
  | none, none, none      => .error (.custom "condition must have `all`, `any`, or `left`")
  | _, _, _               => .error
    (.custom "condition must be exactly one of: all-group, any-group, or compare")

mutual

def Condition.deserialize : Yaml → Except GenError Condition
  | .mapping entries => condFields ⟨none, none, none, none, none⟩ entries >>= CondFields.condition
  | _                => invalid

-- The fields are read one by one.
def condFields (f : CondFields) : List (String × Yaml) → Except GenError CondFields
  | []                  => .ok f
  | (key, y) :: entries =>
    match key with
    | "all"   => do
      refuse f.all.isSome (.custom "duplicate field `all`")
      condFields { f with all := some (← conditions y) } entries
    | "any"   => do
      refuse f.any.isSome (.custom "duplicate field `any`")
      condFields { f with any := some (← conditions y) } entries
    | "left"  => do
      refuse f.left.isSome (.custom "duplicate field `left`")
      condFields { f with left := some (← deserializeString y) } entries
    | "op"    => do
      refuse f.op.isSome (.custom "duplicate field `op`")
      condFields { f with op := some (← variant CompareOp.names y) } entries
    | "right" => do
      refuse f.right.isSome (.custom "duplicate field `right`")
      condFields { f with right := some (← deserializeString y) } entries
    | other   => .error (.unknownField other)

def conditions : Yaml → Except GenError (List Condition)
  | .sequence items => conditionItems items
  | _               => invalid

def conditionItems : List Yaml → Except GenError (List Condition)
  | []         => .ok []
  | y :: items => do return (← Condition.deserialize y) :: (← conditionItems items)

end

-- Steps, whose kind is a field of theirs.
def serializeThinkTime (t : ThinkTime) : Yaml :=
  .mapping [("min_ms", .ofNat t.minMs), ("max_ms", .ofNat t.maxMs)]

def deserializeThinkTime (y : Yaml) : Except GenError ThinkTime := do
  let m ← y.fields
  return ⟨← required m "min_ms" readWord, ← required m "max_ms" readWord⟩

namespace HttpStep

def serializeEntries (step : HttpStep) : List (String × Yaml) :=
  [("id", .string step.id), ("name", .string step.name), ("request", step.request.serialize),
    ("assert", .sequence (step.assertions.map Assertion.serialize)),
    ("extract", .sequence (step.extract.map Extract.serialize))] ++
    entry "timeout_seconds" step.timeoutSeconds .ofNat ++
    entry "think_time" step.thinkTime serializeThinkTime

def deserialize (m : Mapping) : Except GenError HttpStep := do
  denyUnknown m
    ["type", "id", "name", "request", "assert", "extract", "timeout_seconds", "think_time"]
  return {
    id             := ← field m "id" deserializeString
    name           := ← field m "name" deserializeString
    request        := ← field m "request" Request.deserialize
    assertions     := (← present m "assert" (sequence Assertion.deserialize)).getD []
    extract        := (← present m "extract" (sequence Extract.deserialize)).getD []
    timeoutSeconds := ← optional m "timeout_seconds" readU32
    thinkTime      := ← orNull m "think_time" deserializeThinkTime }

end HttpStep

mutual

def Step.serialize : Step → Yaml
  | .http step                                 =>
    .mapping (("type", .string "http") :: step.serializeEntries)
  | .loop id name repeats body                 =>
    .mapping [("type", .string "loop"), ("id", .string id), ("name", .string name),
      ("repeat", .ofNat repeats), ("do", .sequence (serializeSteps body))]
  | .ifStep id name cond thenSteps elifs elseSteps =>
    .mapping [("type", .string "if"), ("id", .string id), ("name", .string name),
      ("cond", cond.serialize), ("then", .sequence (serializeSteps thenSteps)),
      ("elif", .sequence (serializeElifs elifs)), ("else", .sequence (serializeSteps elseSteps))]
  | .parallel id name branches                 =>
    .mapping [("type", .string "parallel"), ("id", .string id), ("name", .string name),
      ("branches", .sequence (serializeBranches branches))]

def serializeSteps : List Step → List Yaml
  | []            => []
  | step :: steps => step.serialize :: serializeSteps steps

def serializeElifs : List (Condition × List Step) → List Yaml
  | []                     => []
  | (cond, steps) :: elifs =>
    .mapping [("cond", cond.serialize), ("then", .sequence (serializeSteps steps))] ::
      serializeElifs elifs

def serializeBranches : List (String × List Step) → List Yaml
  | []                        => []
  | (name, steps) :: branches =>
    .mapping [("name", .string name), ("steps", .sequence (serializeSteps steps))] ::
      serializeBranches branches

end

-- What a field that must be there has been read as.
def demand {α : Type} (key : String) : Option α → Except GenError α
  | some a => .ok a
  | none   => .error (.missingField key)

mutual

def Step.deserialize : Yaml → Except GenError Step
  | .mapping entries => do
    let m ← fields entries
    match ← field m "type" deserializeString with
    | "http"     => .http <$> HttpStep.deserialize m
    | "loop"     => do
      denyUnknown m ["type", "id", "name", "repeat", "do"]
      return .loop (← field m "id" deserializeString) (← field m "name" deserializeString)
        (← required m "repeat" readU32) (← demand "do" (← fieldSteps "do" entries))
    | "if"       => do
      denyUnknown m ["type", "id", "name", "cond", "then", "elif", "else"]
      return .ifStep (← field m "id" deserializeString) (← field m "name" deserializeString)
        (← field m "cond" Condition.deserialize) (← demand "then" (← fieldSteps "then" entries))
        ((← fieldElifs entries).getD []) ((← fieldSteps "else" entries).getD [])
    | "parallel" => do
      denyUnknown m ["type", "id", "name", "branches"]
      return .parallel (← field m "id" deserializeString) (← field m "name" deserializeString)
        (← demand "branches" (← fieldBranches entries))
    | other      => .error (.custom s!"unknown variant: {other}")
  | _                => invalid

-- The steps of a field, if it is there.
def fieldSteps (key : String) : List (String × Yaml) → Except GenError (Option (List Step))
  | []                => .ok none
  | (k, y) :: entries => if k = key then some <$> steps y else fieldSteps key entries

def steps : Yaml → Except GenError (List Step)
  | .sequence items => stepItems items
  | _               => invalid

def stepItems : List Yaml → Except GenError (List Step)
  | []         => .ok []
  | y :: items => do return (← Step.deserialize y) :: (← stepItems items)

def fieldElifs : List (String × Yaml) → Except GenError (Option (List (Condition × List Step)))
  | []                => .ok none
  | (k, y) :: entries => if k = "elif" then some <$> elifs y else fieldElifs entries

def elifs : Yaml → Except GenError (List (Condition × List Step))
  | .sequence items => elifItems items
  | _               => invalid

def elifItems : List Yaml → Except GenError (List (Condition × List Step))
  | []         => .ok []
  | y :: items => do return (← elifBranch y) :: (← elifItems items)

def elifBranch : Yaml → Except GenError (Condition × List Step)
  | .mapping entries => do
    let m ← fields entries
    denyUnknown m ["cond", "then"]
    return (← field m "cond" Condition.deserialize, ← demand "then" (← fieldSteps "then" entries))
  | _                => invalid

def fieldBranches : List (String × Yaml) → Except GenError (Option (List (String × List Step)))
  | []                => .ok none
  | (k, y) :: entries => if k = "branches" then some <$> branches y else fieldBranches entries

def branches : Yaml → Except GenError (List (String × List Step))
  | .sequence items => branchItems items
  | _               => invalid

def branchItems : List Yaml → Except GenError (List (String × List Step))
  | []         => .ok []
  | y :: items => do return (← branch y) :: (← branchItems items)

def branch : Yaml → Except GenError (String × List Step)
  | .mapping entries => do
    let m ← fields entries
    denyUnknown m ["name", "steps"]
    return (← field m "name" deserializeString, ← demand "steps" (← fieldSteps "steps" entries))
  | _                => invalid

end

-- Scenarios.
def cookieJarModes : List (String × Bool) :=
  [("auto", true), ("off", false)]

namespace Scenario

def serialize (s : Scenario) : Yaml :=
  .mapping ([("version", .ofNat s.version), ("name", .string s.name),
    ("variables", .mapping (s.varDecls.map fun v => (v.1, v.2.serialize))),
    ("cookie_jar", .string (if s.cookieJar then "auto" else "off"))] ++
    entry "default_think_time" s.defaultThinkTime serializeThinkTime ++
    entry "notes" s.notes .string ++ [("steps", .sequence (serializeSteps s.steps))])

def deserializeVariables (lib : DeclLib) : Yaml → Except GenError (List (String × VarDecl))
  | .mapping entries => do
    let decls ← entries.mapM fun e => return (e.1, ← VarDecl.deserialize lib e.2)
    return KeyOrder.ofList decls
  | _                => invalid

def deserialize (lib : DeclLib) (y : Yaml) : Except GenError Scenario := do
  let m ← y.fields
  denyUnknown m
    ["version", "name", "variables", "cookie_jar", "default_think_time", "notes", "steps"]
  return {
    version          := ← required m "version" readU32
    name             := ← required m "name" (readText lib "name")
    varDecls         := (← present m "variables" (deserializeVariables lib)).getD []
    cookieJar        := (← present m "cookie_jar" (variant cookieJarModes)).getD true
    defaultThinkTime := ← orNull m "default_think_time" deserializeThinkTime
    notes            := ← optional m "notes" (readText lib "notes")
    steps            := ← field m "steps" Engine.steps }

end Scenario

-- The text of a value tree, and the tree of a text.
structure YamlText where
  parse : String → Except String Yaml
  print : Yaml → Except String String

def fromYaml (yaml : YamlText) (lib : DeclLib) (text : String) : Except GenError Scenario := do
  Scenario.deserialize lib (← (yaml.parse text).mapError .custom)

def Scenario.toYaml (yaml : YamlText) (s : Scenario) : Except GenError String :=
  (yaml.print s.serialize).mapError .custom

end Engine
