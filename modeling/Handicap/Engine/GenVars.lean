import Handicap.Engine.Yaml
import Handicap.Library.Guard
import Handicap.Library.Text

-- The variables that are generated, as the engine reads their declarations.
namespace Engine

open Guard (refuse)

def pickArrayMaxLen   := 1000
def positionsMaxChars := 4096
def pickValueMaxChars := 64

inductive Refresh
  | iteration
  | request
  deriving DecidableEq

-- A value of an array.
inductive Scalar
  | null
  | bool (b : Bool)
  | int (n : YamlInt)
  | float (q : Binary64.Double)
  | string (s : String)
  deriving DecidableEq

structure DateGen where
  format     : String
  offset     : Option String
  tz         : Option String
  offsetSecs : ℤ
  deriving DecidableEq

structure RandomIntGen where
  min  : ℤ
  max  : ℤ
  step : ℕ
  deriving DecidableEq

structure PickArrayGen where
  length     : ℕ
  min        : ℕ
  max        : ℕ
  positions  : Option String
  pick       : Option Scalar
  rest       : Option Scalar
  candidates : List ℕ
  deriving DecidableEq

inductive GenSpec
  | date (gen : DateGen)
  | randomInt (gen : RandomIntGen)
  | uuid
  | randomString (length : ℕ)
  | pickArray (gen : PickArrayGen)
  deriving DecidableEq

inductive VarDecl
  | static (value : String)
  | gen (spec : GenSpec) (refresh : Refresh)
  deriving DecidableEq

-- A declaration as it is read, field by field.
structure GenSpecWire where
  gen       : String
  format    : Option String
  offset    : Option String
  tz        : Option String
  min       : Option ℤ
  max       : Option ℤ
  step      : Option ℕ
  length    : Option ℕ
  positions : Option String
  pick      : Option Scalar
  rest      : Option Scalar
  refresh   : Option Refresh

inductive GenError
  | unknownField (key : String)
  | missingField (key : String)
  | invalidType (key : String)
  | custom (message : String)
  deriving DecidableEq

-- An item of a format of dates. One of them can be read only, and one stands for what is no format.
inductive StrftimeItem
  | literal (text : String)
  | field (specifier : String)
  | permissiveOffset
  | error
  deriving DecidableEq

-- What declarations are read with: the text that a plain value of a field is written as, the items
-- of a format, and the names of the time zones.
structure DeclLib where
  plain         : String → Yaml → String
  strftimeItems : String → List StrftimeItem
  tzValid       : String → Bool

def DeclLib.strftimeValid (lib : DeclLib) (f : String) : Bool :=
  (lib.strftimeItems f).all (· ≠ .error)

section

variable (m : Mapping) (key : String)

-- A field that may be left out or be null.
def optional {α : Type} (read : Yaml → Option α) : Except GenError (Option α) :=
  match m.get key with
  | none       => .ok none
  | some .null => .ok none
  | some v     =>
    match read v with
    | some a => .ok (some a)
    | none   => .error (.invalidType key)

-- A field that may be left out, and is read even if it is null.
def present {α : Type} (read : Yaml → Except GenError α) : Except GenError (Option α) :=
  match m.get key with
  | none   => .ok none
  | some v => (read v).map some

def required {α : Type} (read : Yaml → Option α) : Except GenError α :=
  match m.get key with
  | none   => .error (.missingField key)
  | some v =>
    match read v with
    | some a => .ok a
    | none   => .error (.invalidType key)

end

def readString : Yaml → Option String
  | .string s => some s
  | _         => none

-- A text may be written without quotes. Where it looks like something else, it is a text all the
-- same.
def readText (lib : DeclLib) (key : String) : Yaml → Option String
  | .string s   => some s
  | .sequence _ => none
  | .mapping _  => none
  | y           => some (lib.plain key y)

def readI64 : Yaml → Option ℤ
  | .int n => if n.val < 2 ^ 63 then some n.val else none
  | _      => none

def readU32 : Yaml → Option ℕ
  | .int n => if 0 ≤ n.val ∧ n.val < 2 ^ 32 then some n.val.toNat else none
  | _      => none

def presentRefresh : Yaml → Except GenError Refresh
  | .string s =>
    if s = "request" then .ok .request
    else if s = "iteration" then .ok .iteration
    else .error (.custom "refresh는 request 또는 iteration")
  | _         => .error (.custom "refresh는 request 또는 iteration")

def presentValue : Yaml → Except GenError Scalar
  | .null     => .ok .null
  | .bool b   => .ok (.bool b)
  | .int n    => .ok (.int n)
  | .wide _   => .error (.custom "invalid type: integer")
  | .float q  => .ok (.float q)
  | .string s =>
    if pickValueMaxChars < s.length then
      .error (.custom "pick/rest 문자열은 64자 이하여야 한다")
    else
      .ok (.string s)
  | _         => .error (.custom "pick/rest는 스칼라(불리언·숫자·문자열·null)만 받는다")

def presentPositions : Yaml → Except GenError String
  | .string s => .ok s
  | .int n    =>
    if 0 ≤ n.val then .ok (toString n.val.toNat)
    else .error (.custom "positions는 문자열 또는 0 이상 정수")
  | _         => .error (.custom "positions는 문자열 또는 0 이상 정수")

def wireFields : List String :=
  ["gen", "format", "offset", "tz", "min", "max", "step", "length", "positions", "pick", "rest",
    "refresh"]

def GenSpecWire.deserialize (lib : DeclLib) (m : Mapping) : Except GenError GenSpecWire := do
  m.keys.forM fun key => refuse (key ∉ wireFields) (GenError.unknownField key)
  return {
    gen       := ← required m "gen" (readText lib "gen")
    format    := ← optional m "format" (readText lib "format")
    offset    := ← optional m "offset" (readText lib "offset")
    tz        := ← optional m "tz" (readText lib "tz")
    min       := ← optional m "min" readI64
    max       := ← optional m "max" readI64
    step      := ← optional m "step" readU32
    length    := ← optional m "length" readU32
    positions := ← present m "positions" presentPositions
    pick      := ← present m "pick" presentValue
    rest      := ← present m "rest" presentValue
    refresh   := ← present m "refresh" presentRefresh }

def isAsciiWhitespace (c : Char) : Bool :=
  c ∈ [' ', '\t', '\n', '\r', '\x0c']

def trimAsciiWs : List Char → List Char :=
  Text.strip isAsciiWhitespace

-- A number of a range of positions.
def num (s : List Char) : Option ℕ :=
  let s := trimAsciiWs s
  if s = [] ∨ 4 < s.length ∨ ¬s.all Char.isDigit then none else some (Text.digitsValue s)

-- What stands before and after the first minus sign, if there is one.
def splitOnce (item : List Char) : Option (List Char × List Char) :=
  match item.span (· ≠ '-') with
  | (x, _ :: y) => some (x, y)
  | (_, [])     => none

def item (raw : List Char) : Option ℕ × Option ℕ :=
  let item := trimAsciiWs raw
  match splitOnce item with
  | some (x, y) => (num x, num y)
  | none        => (num item, num item)

def markItems (length : ℕ) : ℕ → (ℕ → Bool) → List (List Char) → Except String (ℕ → Bool)
  | _, mark, []          => .ok mark
  | i, mark, raw :: raws =>
    match item raw with
    | (some a, some b) => do
      refuse (b < a) s!"positions {i}번째 항목: 앞 번호가 더 크다"
      refuse (a < 1 ∨ length < b) s!"positions {i}번째 항목: 자리는 1~{length}"
      markItems length (i + 1) (fun p => mark p || (a ≤ p && p ≤ b)) raws
    | _                => .error s!"positions {i}번째 항목을 읽을 수 없다"

-- The length of a text in bytes.
def byteLength (s : List Char) : ℕ :=
  (s.map Char.utf8Size).sum

def parsePositions (text : String) (length : ℕ) : Except String (List ℕ) := do
  refuse (¬(1 ≤ length ∧ length ≤ pickArrayMaxLen)) s!"length는 1~{pickArrayMaxLen}"
  refuse (positionsMaxChars < byteLength text.toList) s!"positions는 {positionsMaxChars}자 이하"
  if trimAsciiWs text.toList = [] then
    return []
  else
    let mark ← markItems length 1 (fun _ => false) (text.toList.splitOn ',')
    return (List.range' 1 length).filter mark

def unitSeconds : Char → Option ℕ
  | 's' => some 1
  | 'm' => some 60
  | 'h' => some 3600
  | 'd' => some 86400
  | _   => none

def parseOffsetSecs (s : String) : Option ℤ :=
  match s.toList with
  | sign :: rest =>
    let digits := rest.dropLast
    if sign ∉ ['+', '-'] ∨ digits = [] ∨ 9 < digits.length ∨ ¬digits.all Char.isDigit then
      none
    else
      (rest.getLast?.bind unitSeconds).map fun mult =>
        (if sign = '-' then -1 else 1) * (Text.digitsValue digits * mult : ℕ)
  | []           => none

namespace GenSpecWire

variable (lib : DeclLib) (w : GenSpecWire)

def toDate : Except String GenSpec := do
  refuse (w.min.isSome ∨ w.max.isSome ∨ w.step.isSome ∨ w.length.isSome ∨ w.positions.isSome ∨
    w.pick.isSome ∨ w.rest.isSome) "date 생성기는 min/max/step/length를 받지 않는다"
  let format := w.format.getD "%Y-%m-%d"
  refuse (format ≠ "unix" ∧ format ≠ "unix_ms" ∧ ¬lib.strftimeValid format)
    s!"잘못된 날짜 형식: {format}"
  let offsetSecs ←
    match w.offset with
    | some o =>
      match parseOffsetSecs o with
      | some secs => pure secs
      | none      => .error s!"잘못된 오프셋: {o} (예: +7d, -2h)"
    | none   => pure 0
  let tz := w.tz.getD ""
  refuse (∃ t ∈ w.tz, ¬lib.tzValid t) s!"알 수 없는 타임존: {tz}"
  return .date { format, offset := w.offset, tz := w.tz, offsetSecs }

def toRandomInt : Except String GenSpec := do
  refuse (w.format.isSome ∨ w.offset.isSome ∨ w.tz.isSome ∨ w.length.isSome ∨ w.positions.isSome ∨
    w.pick.isSome ∨ w.rest.isSome) "random_int 생성기는 format/offset/tz/length를 받지 않는다"
  match w.min, w.max with
  | some min, some max =>
    refuse (max < min) s!"min({min}) > max({max})"
    let step := w.step.getD 1
    refuse (step = 0) "step은 1 이상"
    return .randomInt { min, max, step }
  | _, _               => .error "random_int는 min·max가 필수"

def toUuid : Except String GenSpec := do
  refuse (w.format.isSome ∨ w.offset.isSome ∨ w.tz.isSome ∨ w.min.isSome ∨ w.max.isSome ∨
    w.step.isSome ∨ w.length.isSome ∨ w.positions.isSome ∨ w.pick.isSome ∨ w.rest.isSome)
    "uuid 생성기는 파라미터를 받지 않는다"
  return .uuid

def toRandomString : Except String GenSpec := do
  refuse (w.format.isSome ∨ w.offset.isSome ∨ w.tz.isSome ∨ w.min.isSome ∨ w.max.isSome ∨
    w.step.isSome ∨ w.positions.isSome ∨ w.pick.isSome ∨ w.rest.isSome)
    "random_string 생성기는 length만 받는다"
  let length := w.length.getD 8
  refuse (¬(1 ≤ length ∧ length ≤ 64)) s!"length는 1~64: {length}"
  return .randomString length

-- The positions that may be picked.
def candidates (length : ℕ) : Except String (List ℕ) :=
  match w.positions with
  | some p => parsePositions p length
  | none   => .ok (List.range' 1 length)

def toPickArray : Except String GenSpec := do
  refuse (w.format.isSome ∨ w.offset.isSome ∨ w.tz.isSome ∨ w.step.isSome)
    "pick_array 생성기는 format/offset/tz/step을 받지 않는다"
  match w.length with
  | none        => .error "pick_array는 length가 필수"
  | some length =>
    refuse (¬(1 ≤ length ∧ length ≤ pickArrayMaxLen)) s!"length는 1~{pickArrayMaxLen}: {length}"
    match w.min, w.max with
    | some min, some max =>
      refuse (min < 0) s!"min은 0 이상: {min}"
      refuse (max < min) s!"min({min}) > max({max})"
      refuse (length < max) s!"max({max}) > length({length})"
      let candidates ← w.candidates length
      refuse (candidates = []) "positions: 선택될 수 있는 자리가 없다"
      refuse (candidates.length < min) s!"min({min}) > 후보 수({candidates.length})"
      return .pickArray
        { length, min := min.toNat, max := max.toNat, positions := w.positions, pick := w.pick
          rest := w.rest, candidates }
    | _, _               => .error "pick_array는 min·max가 필수"

def tryInto : Except String GenSpec :=
  match w.gen with
  | "date"          => w.toDate lib
  | "random_int"    => w.toRandomInt
  | "uuid"          => w.toUuid
  | "random_string" => w.toRandomString
  | "pick_array"    => w.toPickArray
  | other           => .error s!"알 수 없는 생성기: {other}"

end GenSpecWire

-- The refresh of a declaration is common to all generators.
def VarDecl.visitMap (lib : DeclLib) (m : Mapping) : Except GenError VarDecl := do
  let wire ← GenSpecWire.deserialize lib m
  let spec ← (wire.tryInto lib).mapError .custom
  return .gen spec (wire.refresh.getD .iteration)

end Engine
