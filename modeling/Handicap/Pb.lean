import Handicap.Store.Profile

open Store

-- The messages between the controller and its workers.
namespace Pb

structure Profile where
  vus                     : U32
  rampUpSeconds           : U32
  durationSeconds         : U32
  loopBreakdownCap        : U32
  httpTimeoutSeconds      : U32
  thinkTime               : Option ThinkTime
  thinkSeed               : Option U32
  targetRps               : Option U32
  maxInFlight             : Option U32
  stages                  : List Stage
  measurePhases           : Bool
  vuStages                : List Stage
  rampDownImmediate       : Bool
  gracefulRampDownSeconds : Option U32
  connectTimeoutSeconds   : Option U32
  deriving DecidableEq, Inhabited

def toProtoProfile (p : Store.Profile) : Profile where
  vus                     := p.vus
  rampUpSeconds           := p.rampUpSeconds
  durationSeconds         := p.durationSeconds
  loopBreakdownCap        := p.loopBreakdownCap
  httpTimeoutSeconds      := p.httpTimeoutSeconds
  thinkTime               := p.thinkTime
  thinkSeed               := p.thinkSeed
  targetRps               := p.targetRps
  maxInFlight             := p.maxInFlight
  stages                  := p.stages.getD []
  measurePhases           := p.measurePhases
  vuStages                := p.vuStages.getD []
  rampDownImmediate       := p.rampDown = some .immediate
  gracefulRampDownSeconds := p.gracefulRampDownSeconds
  connectTimeoutSeconds   := p.connectTimeoutSeconds

inductive Phase
  | unspecified
  | started
  | completed
  | failed
  | aborted
  deriving DecidableEq

-- The number of a phase in a `RunStatus` message.
def Phase.toInt : Phase → ℤ
  | unspecified => 0
  | started     => 1
  | completed   => 2
  | failed      => 3
  | aborted     => 4

def Phase.isTerminal : Phase → Bool
  | completed | failed | aborted => true
  | unspecified | started        => false

structure DataBinding where
  policy   : BindingPolicy
  seed     : U32
  rowCount : ℕ
  deriving DecidableEq

structure RunAssignment where
  runId        : String
  scenarioYaml : String
  profile      : Profile
  env          : List (String × String)
  shardIndex   : ℕ
  shardCount   : ℕ
  vuOffset     : ℕ
  vuCount      : ℕ
  dataBindings : List DataBinding
  deriving DecidableEq

inductive ServerMessage
  | assignment (a : RunAssignment)
  | abort (runId reason : String)
  | ping
  | disconnect (reason : String)
  | datasetBatch (runId : String) (rows : List StringMap) (bindingIndex : ℕ)
  deriving DecidableEq

end Pb
