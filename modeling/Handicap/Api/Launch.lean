import Handicap.Api.Validate
import Handicap.Coordinator.Pool
import Mathlib.Algebra.Order.Field.Basic
import Mathlib.Algebra.Order.Floor.Defs

open Store Coordinator

-- What a launch hands to the coordinator: the run that it enqueues, by dispatching new workers or
-- by reserving workers of the pool.
namespace Api

-- A validated run, as it is launched under a fresh id, with the scenario as it is sent to the
-- workers.
structure Launch where
  run          : RunId
  profile      : Profile
  metas        : List DatasetMeta
  scenarioYaml : String
  env          : List (String × String)
  force        : Bool

-- FNV-1a over the bytes of the id.
def foldSeed (runId : RunId) : U32 :=
  runId.toUTF8.toList.foldl (fun h byte => Fin.ofNat _ ((h.val ^^^ byte.toNat) * 0x01000193))
    0x811C9DC5

namespace Launch

variable (l : Launch)

def dataBinding (b : DataBinding) (data : DatasetMeta) : PendingDataBinding where
  datasetId := b.datasetId
  policy    := b.policy
  seed      := foldSeed l.run
  mappings  := b.mappings
  rowCount  :=
    match b.policy with
    | .perVu =>
      let slotCount :=
        if l.profile.isVuCurve then
          l.profile.vuCurveMax
        else if l.profile.isOpenLoop then
          l.profile.maxInFlight.getD 0
        else
          l.profile.vus
      min slotCount.val data.rowCount
    | _ => data.rowCount

def assignment : PendingAssignment where
  scenarioYaml := l.scenarioYaml
  profile      := Pb.toProtoProfile l.profile
  env          := l.env
  dataBindings := List.zipWith l.dataBinding l.profile.effectiveBindings l.metas

-- The first unique binding with fewer rows than workers.
def poolUniqueFloorViolation (nPool : ℕ) : Option (ℕ × ℕ) :=
  l.assignment.dataBindings.findSome? fun b =>
    if b.policy = .unique ∧ b.rowCount < nPool then some (b.rowCount, nPool) else none

-- The run for `n` workers, evenly split unless the counts are given.
def enqueued (n : ℕ) (counts : Option (Vector (ℕ × ℕ) n)) : RunWorkers :=
  .new l.assignment n l.profile.concurrencyDemand counts

-- The runs that a launch can enqueue: for dispatched workers; for as many idle workers of the pool
-- as the load has use for; or for idle workers whose capacities bear the load.
inductive Enqueues (settings : Settings) (pool : Pool) : RunWorkers → Prop
  | fanOut :
    Enqueues settings pool
      (l.enqueued (fanoutWorkerCount l.profile settings.workerCapacityVus) none)
  | force {order : List WorkerId} {reserved : List (WorkerId × Tx)} :
    (pool.reserveIdlePool order l.run l.profile.poolWorkerCap).1 = reserved → reserved ≠ [] →
    Enqueues settings pool (l.enqueued reserved.length none)
  | pool {workers : List (WorkerId × Tx)} {counts : Vector (ℕ × ℕ) workers.length} :
    (pool.reserveIdlePoolCapacity l.run l.profile.poolWorkerCap l.profile.concurrencyDemand).1 =
      .reserved workers counts → workers ≠ [] →
    Enqueues settings pool (l.enqueued workers.length (some counts))

end Launch

section

-- How long a run may stay silent after its start, over an ordered field with a square root.
variable {K : Type*} [Field K] [LinearOrder K] [FloorSemiring K] (sqrt : K → K)

-- The stages without load in front.
def leadingIdleSecs (p : Pb.Profile) : ℕ :=
  let lead := if !p.vuStages.isEmpty then p.vuStages else p.stages
  ((lead.takeWhile (·.target = 0)).map (·.durationSeconds.val)).sum

-- A bound on the first arrival of an open-loop curve within its first stage with a load, where at
-- most `nWorkers` workers share the curve.
def curveFirstArrivalSecs (p : Pb.Profile) (nWorkers : ℕ) : ℕ :=
  if !p.vuStages.isEmpty then
    0
  else
    match p.stages.find? (·.target ≠ 0) with
    | none   => 0
    | some s =>
      let d := s.durationSeconds.val
      if d = 0 then
        0
      else
        let n     := max nWorkers 1
        let bound := ⌈sqrt ((n : K) * d / s.target.val)⌉₊
        min bound d

end

end Api
