import Mathlib.Algebra.Order.Ring.Nat
import Mathlib.Data.List.AList
import Mathlib.Data.Rat.Defs
import Mathlib.Order.Fin.Basic

-- The run configuration as it is stored with a run.
namespace Store

abbrev U32 := Fin (2 ^ 32)

instance instNeZeroU32 : NeZero (2 ^ 32) :=
  ⟨by decide⟩

-- The characters that trimming removes.
def isWhiteSpace (c : Char) : Bool :=
  let n := c.toNat
  (0x9 ≤ n && n ≤ 0xD) || (0x2000 ≤ n && n ≤ 0x200A) ||
    n ∈ [0x20, 0x85, 0xA0, 0x1680, 0x2028, 0x2029, 0x202F, 0x205F, 0x3000]

-- A f64 of which only the order and the finiteness are used.
inductive F64
  | finite (value : ℚ)
  | infinite (negative : Bool)
  | nan
  deriving DecidableEq

namespace F64

def isFinite : F64 → Bool
  | finite _ => true
  | _        => false

def isNegative : F64 → Bool
  | finite q   => q < 0
  | infinite b => b
  | nan        => false

-- Membership in the inclusive range from 0 to 1.
def inUnit : F64 → Bool
  | finite q => 0 ≤ q && q ≤ 1
  | _        => false

end F64

structure Stage where
  target          : U32
  durationSeconds : U32
  deriving DecidableEq

structure ThinkTime where
  minMs : U32
  maxMs : U32
  deriving DecidableEq

inductive RampDown
  | graceful
  | immediate
  deriving DecidableEq

inductive BindingPolicy
  | perVu
  | iterSequential
  | iterRandom
  | unique
  deriving DecidableEq

inductive Mapping
  | column (var column : String)
  | literal (var value : String)
  deriving DecidableEq

def Mapping.var : Mapping → String
  | column var _ | literal var _ => var

structure DataBinding where
  datasetId : String
  policy    : BindingPolicy
  mappings  : List Mapping
  deriving DecidableEq

def DataBinding.referencedColumns (b : DataBinding) : List String :=
  b.mappings.filterMap fun
    | .column _ column => some column
    | .literal _ _     => none

def collectVarNames (bindings : List DataBinding) : List String :=
  (bindings.flatMap DataBinding.mappings).map Mapping.var

structure Criterion where
  metric    : String
  op        : String
  threshold : F64
  target    : String
  deriving DecidableEq

structure Criteria where
  maxErrorRate : Option F64
  minRps       : Option F64
  max4xxRate   : Option F64
  max5xxRate   : Option F64
  minWindowRps : Option F64
  stepCriteria : List Criterion
  deriving DecidableEq

structure Profile where
  vus                     : U32
  rampUpSeconds           : U32
  durationSeconds         : U32
  loopBreakdownCap        : U32
  httpTimeoutSeconds      : U32
  dataBinding             : Option DataBinding
  dataBindings            : List DataBinding
  criteria                : Option Criteria
  thinkTime               : Option ThinkTime
  thinkSeed               : Option U32
  targetRps               : Option U32
  maxInFlight             : Option U32
  stages                  : Option (List Stage)
  measurePhases           : Bool
  vuStages                : Option (List Stage)
  rampDown                : Option RampDown
  gracefulRampDownSeconds : Option U32
  connectTimeoutSeconds   : Option U32
  workerCount             : Option U32
  applyScenarioThinkTime  : Bool
  deriving DecidableEq

namespace Profile

-- The bindings in force: the list, or else the single binding of older profiles.
def effectiveBindings (p : Profile) : List DataBinding :=
  if p.dataBindings.isEmpty then p.dataBinding.toList else p.dataBindings

def hasStages (p : Profile) : Bool :=
  p.stages.any (!·.isEmpty)

def isOpenLoop (p : Profile) : Bool :=
  p.targetRps.isSome || p.hasStages

def isVuCurve (p : Profile) : Bool :=
  p.vuStages.any (!·.isEmpty)

-- The largest target of the stages, if there are any.
def maxTarget (stages : Option (List Stage)) : Option U32 :=
  ((stages.getD []).map Stage.target).max?

def vuCurveMax (p : Profile) : U32 :=
  (maxTarget p.vuStages).getD 0

def concurrencyDemand (p : Profile) : U32 :=
  if p.isVuCurve then
    p.vuCurveMax
  else if p.isOpenLoop then
    p.maxInFlight.getD 1
  else
    p.vus

def ratePeak (p : Profile) : U32 :=
  p.targetRps.getD ((maxTarget p.stages).getD 1)

def poolWorkerCap (p : Profile) : U32 :=
  if p.isVuCurve then
    p.vuCurveMax
  else if p.isOpenLoop then
    min (p.maxInFlight.getD 1) p.ratePeak
  else
    p.vus

end Profile

-- A map from strings to strings.
abbrev StringMap := AList fun _ : String => String

-- Up to `limit` rows from the given position on.
def getRowsRange (rows : List StringMap) (start limit : ℕ) : List StringMap :=
  (rows.drop start).take limit

end Store
