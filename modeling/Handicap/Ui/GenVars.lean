import Handicap.Engine.GenVars
import Handicap.Library.Rounding
import Handicap.Ui.PickArray

-- The variables that are generated, as the editor reads their declarations.
namespace Ui

open Engine (Yaml Mapping Refresh)

-- The text of a number that is a natural one. A large one is written with an exponent.
structure NumberText where
  exponential : ℕ → String
  exponent    : ∀ n, 'e' ∈ (exponential n).toList

def NumberText.text (t : NumberText) (n : ℕ) : String :=
  if n < 10 ^ 21 then toString n else t.exponential n

-- A value of an array. There is one kind of numbers.
inductive PickScalar
  | null
  | bool (b : Bool)
  | number (q : ℚ)
  | string (s : String)
  deriving DecidableEq

inductive GenSpec
  | date (format offset tz : Option String)
  | randomInt (min max : ℚ) (step : Option ℚ)
  | uuid
  | randomString (length : Option ℚ)
  | pickArray (length min max : ℚ) (positions : Option String) (pick rest : Option PickScalar)
  deriving DecidableEq

structure Issue where
  message : String
  path    : List String
  deriving DecidableEq

namespace Schema

def string : Yaml → Option String
  | .string s => some s
  | _         => none

-- An integer becomes the nearest number.
def number : Yaml → Option ℚ
  | .int n   => some (Rounding.roundInt 53 n.val)
  | .wide n  => some (Rounding.roundInt 53 n.val)
  | .float q => some q.val
  | _        => none

def int (v : Yaml) : Option ℚ :=
  (number v).filter (·.isInt)

def refresh : Yaml → Option Refresh
  | .string s =>
    if s = "iteration" then some .iteration else if s = "request" then some .request else none
  | _         => none

def jsonScalar : Yaml → Option PickScalar
  | .null     => some .null
  | .bool b   => some (.bool b)
  | .string s => if pickValueTooLong s then none else some (.string s)
  | v         => (number v).map .number

def positions (t : NumberText) : Yaml → Option String
  | .string s => some s
  | v         => ((int v).filter (0 ≤ ·)).map fun q => t.text q.num.toNat

-- A sign, one to nine digits and a unit.
def isOffset : List Char → Bool
  | sign :: rest =>
    sign ∈ ['+', '-'] && rest.getLast?.any (· ∈ ['s', 'm', 'h', 'd']) &&
      rest.dropLast.length ∈ List.range' 1 9 && rest.dropLast.all Char.isDigit
  | []           => false

def offset (v : Yaml) : Option String :=
  (string v).filter fun s => isOffset s.toList

end Schema

-- A field that may be left out but may not be null.
def optional (m : Mapping) (key : String) {α : Type} (schema : Yaml → Option α) :
    Option (Option α) :=
  match m.get key with
  | none   => some none
  | some v => (schema v).map some

def required (m : Mapping) (key : String) {α : Type} (schema : Yaml → Option α) : Option α :=
  (m.get key).bind schema

def strict (m : Mapping) (allowed : List String) : Option Unit :=
  guard (∀ key ∈ m.keys, key ∈ allowed)

section

variable (t : NumberText) (m : Mapping)

def dateGenModel : Option GenSpec := do
  let format ← optional m "format" Schema.string
  let offset ← optional m "offset" Schema.offset
  let tz ← optional m "tz" Schema.string
  let _ ← optional m "refresh" Schema.refresh
  strict m ["gen", "format", "offset", "tz", "refresh"]
  return .date format offset tz

def randomIntGenModel : Option GenSpec := do
  let min ← required m "min" Schema.int
  let max ← required m "max" Schema.int
  let step ← optional m "step" fun v => (Schema.int v).filter (1 ≤ ·)
  let _ ← optional m "refresh" Schema.refresh
  strict m ["gen", "min", "max", "step", "refresh"]
  return .randomInt min max step

def uuidGenModel : Option GenSpec := do
  let _ ← optional m "refresh" Schema.refresh
  strict m ["gen", "refresh"]
  return .uuid

def randomStringGenModel : Option GenSpec := do
  let length ← optional m "length" fun v => (Schema.int v).filter fun n => 1 ≤ n && n ≤ 64
  let _ ← optional m "refresh" Schema.refresh
  strict m ["gen", "length", "refresh"]
  return .randomString length

def pickArrayGenModel : Option GenSpec := do
  let length ← required m "length" fun v =>
    (Schema.int v).filter fun n : ℚ => 1 ≤ n && n ≤ pickArrayMaxLen
  let min ← required m "min" fun v => (Schema.int v).filter (0 ≤ ·)
  let max ← required m "max" fun v => (Schema.int v).filter (0 ≤ ·)
  let positions ← optional m "positions" (Schema.positions t)
  let pick ← optional m "pick" Schema.jsonScalar
  let rest ← optional m "rest" Schema.jsonScalar
  let _ ← optional m "refresh" Schema.refresh
  strict m ["gen", "length", "min", "max", "positions", "pick", "rest", "refresh"]
  return .pickArray length min max positions pick rest

def discriminated : Option GenSpec := do
  match m.get "gen" with
  | some (.string "date")          => dateGenModel m
  | some (.string "random_int")    => randomIntGenModel m
  | some (.string "uuid")          => uuidGenModel m
  | some (.string "random_string") => randomStringGenModel m
  | some (.string "pick_array")    => pickArrayGenModel t m
  | _                              => none

-- The positions of an array are not looked at where its length is refused anyway.
def positionIssues (length min : ℚ) (positions : Option String) : List Issue :=
  if ¬isPickLength length then
    []
  else if positions.any fun p => positionsMaxChars < utf16Length p.toList then
    [⟨"positions too long", ["positions"]⟩]
  else
    let count : Option ℚ :=
      match positions with
      | none   => some length
      | some p => (parsePositions p length).toOption.map fun set => set.length
    match count with
    | none   => [⟨"positions invalid", ["positions"]⟩]
    | some c =>
      if c = 0 then [⟨"no candidates", ["positions"]⟩]
      else if c < min then [⟨"min > candidates", ["min"]⟩]
      else []

def superRefine : GenSpec → List Issue
  | .randomInt min max _                       =>
    if max < min then [⟨"min > max", ["min"]⟩] else []
  | .pickArray length min max positions _ _ =>
    (if max < min then [⟨"min > max", ["min"]⟩] else []) ++
      (if length < max then [⟨"max > length", ["max"]⟩] else []) ++
      positionIssues length min positions
  | _                                          => []

def genSpecModel : Option GenSpec :=
  (discriminated t m).filter fun spec => superRefine spec = []

end

end Ui
