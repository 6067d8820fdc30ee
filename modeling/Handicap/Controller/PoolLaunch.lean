import Handicap.Controller.Step

open Store Coordinator Api

-- A launch over the pool from its check to its result, served without any other task in between.
-- What the steps of the assignment find is given.
namespace Controller

-- How the row of the run is inserted, the order in which the pool happens to be iterated, and for
-- each worker what its registration on the run gives and what is assigned to its place. A closed
-- channel has lost its receiver.
structure Outcomes where
  inserted      : Bool
  order         : List WorkerId
  register      : WorkerId → RegisterOutcome
  assignmentFor : WorkerId → Place → Option Pb.RunAssignment
  closed        : Tx → Bool

namespace Outcomes

variable (o : Outcomes)

-- The assignment of a worker, if there is one.
def assignment (worker : WorkerId) : Option Pb.RunAssignment :=
  match o.register worker with
  | .assigned shardIndex shardCount vuOffset vuCount _ =>
    o.assignmentFor worker ⟨shardIndex, shardCount, vuOffset, vuCount⟩
  | _ => none

-- The workers that have been sent an assignment, and whether all have been.
def assignPoolWorkers : List (WorkerId × Tx) → List (WorkerId × Tx) × Bool
  | []                   => ([], true)
  | (worker, tx) :: rest =>
    match o.assignment worker with
    | some _ =>
      if o.closed tx then
        ([], false)
      else
        let (sent, all) := assignPoolWorkers rest
        ((worker, tx) :: sent, all)
    | none => ([], false)

end Outcomes

-- The pool that a launch leaves, with the workers that it has reserved and those of them that it
-- has sent an assignment.
structure Spawned where
  pool     : Pool
  reserved : List (WorkerId × Tx)
  sent     : List (WorkerId × Tx)
  result   : Except ApiError Unit

def spawnReserved (l : Launch) (o : Outcomes) (pool : Pool) (workers : List (WorkerId × Tx)) :
    Spawned :=
  if workers.isEmpty then
    ⟨pool, workers, [], .error (.badRequest noWorkers)⟩
  else
    match l.poolUniqueFloorViolation workers.length with
    | some (rows, n) =>
      let message := s!"unique 데이터셋 행 수가 풀 워커 수보다 적습니다: rows={rows} < workers={n}"
      ⟨pool.releasePoolReservation workers, workers, [], .error (.badRequest message)⟩
    | none =>
      let (sent, all) := o.assignPoolWorkers workers
      ⟨pool, workers, sent, if all then .ok () else .error (.internal assignFailed)⟩

-- The check is made on the pool as it was before the run is inserted.
def spawnRun (l : Launch) (o : Outcomes) (before pool : Pool) : Spawned :=
  let (idle, achievable) := before.achievableCapacity l.profile.poolWorkerCap
  let demand := l.profile.concurrencyDemand
  if ¬l.force ∧ 0 < idle ∧ achievable < demand then
    ⟨pool, [], [], .error (.conflictJson achievable demand)⟩
  else if ¬o.inserted then
    ⟨pool, [], [], .error .db⟩
  else if l.force then
    let (reserved, pool) :=
      pool.reserveIdlePool (iteration o.order pool) l.run l.profile.poolWorkerCap
    spawnReserved l o pool reserved
  else
    match pool.reserveIdlePoolCapacity l.run l.profile.poolWorkerCap demand with
    | (.reserved workers _, pool)     => spawnReserved l o pool workers
    | (.insufficient achievable, pool) =>
      let message := s!"풀 용량 부족 (가용 {achievable} VU < 요청 {demand.val} VU)"
      ⟨pool, [], [], .error (.internal message)⟩

end Controller
