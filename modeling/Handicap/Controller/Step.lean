import Handicap.Controller.State
import Handicap.Library.Trace

open Store Coordinator Api

-- The handlers of the controller, each cut at its awaits, and the steps of the controller: any task
-- may run its next section at any time.
namespace Controller

-- What a section gets from outside: the clock, the order in which a hash map happens to be
-- iterated, whether a channel that must not be waited for is full, and how a dispatch fails.
structure Ambient where
  now           : ℤ
  order         : List WorkerId
  full          : Bool
  dispatchError : Option String

def checkToken (cfg : Config) (presented : String) : Bool :=
  cfg.workerToken.all (· == presented)

-- The keys of the pool in the order of their iteration.
def iteration (order : List WorkerId) (pool : Pool) : List WorkerId :=
  if order.isPerm pool.keys then order else pool.keys

def fanOutAbort (run : RunId) (txs : List Tx) (reason : String) : List Section :=
  txs.map fun tx => .send tx (.abort run reason)

-- Once the messages of a stream have ended.
def Stream.closing (stream : Stream) (tx : Tx) : List Section :=
  if stream.poolConn then
    (stream.workerId.map (.poolDisconnect · tx)).toList
  else
    match stream.runId, stream.workerId with
    | some run, some worker => [.workerDisconnected run worker tx]
    | _, _                  => []

def outcomeOf : Option Effect → RegisterOutcome
  | some (.registered outcome) => outcome
  | _                          => .noRun

def afterRegister (run : RunId) (worker : WorkerId) (tx : Tx) : RegisterOutcome → List Section
  | .assigned shardIndex shardCount vuOffset vuCount first =>
    [.assignmentFor run worker tx ⟨shardIndex, shardCount, vuOffset, vuCount⟩ first]
  | .resend shardIndex shardCount vuOffset vuCount =>
    [.assignmentFor run worker tx ⟨shardIndex, shardCount, vuOffset, vuCount⟩ false]
  | .reject => [.send tx (.abort run "run already started or fully sharded"), .leave tx]
  | .noRun  => [.leave tx]

def startRunning (run : RunId) (setRunning : Bool) : List Section :=
  if setRunning then [.write run (.setStatus .running)] else []

def afterAssignmentFor (run : RunId) (tx : Tx) (setRunning : Bool) :
    Option Pb.RunAssignment → List Section
  | some a => .send tx (.assignment a) :: startRunning run setRunning
  | none   => [.leave tx]

def afterRecordPhase (run : RunId) (worker : WorkerId) (message : String) :
    Option Effect → List Section
  | some (.recorded .completed)         => [.write run (.setStatus .completed)]
  | some (.recorded .aborted)           => [.write run (.setStatus .aborted)]
  | some (.recorded (.failed siblings)) =>
    .write run (.markFailedIfActive (failureMessage worker message)) ::
      fanOutAbort run siblings "sibling worker failed — fail-fast"
  | _ => []

def afterTornDown (run : RunId) (reason abortMessage : String) : Option Effect → List Section
  | some (.tornDown (some siblings)) =>
    .write run (.markFailedIfActive (truncateMessage reason)) ::
      fanOutAbort run siblings abortMessage
  | _ => []

def afterMissing (run : RunId) : Option (ℕ × ℕ) → List Section
  | some (registered, expected) =>
    [.failRunHung run
      s!"only {registered}/{expected} workers registered before the registration deadline"
      "not all workers registered before deadline"]
  | none => []

def afterGetRow (run : RunId) : Option RunRow → List Section
  | some row =>
    if row.status.isActive then
      [.abort run, .write run .markAborted, .reply (.abortRun run (.ok ()))]
    else
      [.reply (.abortRun run
        (.error (.conflict s!"run is {row.status.asStr} and cannot be aborted")))]
  | none => [.reply (.abortRun run (.error .notFound))]

def noWorkers : String :=
  "연결된 LAN 워커가 없습니다 — 워커를 1대 이상 띄우세요"

def assignFailed : String :=
  "풀 워커 배정 실패(워커 이탈) — 재시도하세요"

def giveUpAssign (run : RunId) : List Section :=
  [.cancelDispatchFailed run assignFailed (.internal assignFailed)]

def afterReserved (l : Launch) (workers : List (WorkerId × Tx))
    (counts : Option (Vector (ℕ × ℕ) workers.length)) : List Section :=
  if workers.isEmpty then
    [.cancelDispatchFailed l.run noWorkers (.badRequest noWorkers)]
  else
    match l.poolUniqueFloorViolation workers.length with
    | some (rows, n) =>
      let message := s!"unique 데이터셋 행 수가 풀 워커 수보다 적습니다: rows={rows} < workers={n}"
      [.releasePoolReservation l.run workers message (.badRequest message)]
    | none => [.enqueue l workers.length counts (some workers)]

def afterReserveCapacity (l : Launch) : PoolReservation → List Section
  | .reserved workers counts  => afterReserved l workers (some counts)
  | .insufficient achievable =>
    let requested := l.profile.concurrencyDemand.val
    let message := s!"풀 용량 부족 (가용 {achievable} VU < 요청 {requested} VU)"
    [.cancelDispatchFailed l.run message (.internal message)]

def afterEnqueue (run : RunId) (n : ℕ) : Option (List (WorkerId × Tx)) → List Section
  | some reserved => [.assignNext run reserved]
  | none          => [.dispatch run n]

def afterDispatch (run : RunId) : Option String → List Section
  | none   => [.reply (.spawnRun run (.ok ()))]
  | some e =>
    let message := s!"failed to dispatch workers: {e}"
    [.cancelDispatchFailed run message (.internal message)]

def afterPoolRegister (run : RunId) (worker : WorkerId) (tx : Tx)
    (rest : List (WorkerId × Tx)) : RegisterOutcome → List Section
  | .assigned shardIndex shardCount vuOffset vuCount first =>
    [.poolAssignmentFor run worker tx ⟨shardIndex, shardCount, vuOffset, vuCount⟩ first rest]
  | _ => giveUpAssign run

def afterPoolAssignmentFor (run : RunId) (worker : WorkerId) (tx : Tx) (setRunning : Bool)
    (rest : List (WorkerId × Tx)) : Option Pb.RunAssignment → List Section
  | some a => [.pushAssignment run worker tx a setRunning rest]
  | none   => giveUpAssign run

namespace State

variable (s : State)

def txs (run : RunId) : List Tx :=
  ((s.runs run).map RunWorkers.txs).getD []

def assignmentFor (run : RunId) (p : Place) : Option Pb.RunAssignment :=
  (s.runs run).map fun rw =>
    (rw.assignmentFor run p.shardIndex p.shardCount p.vuOffset p.vuCount).1

def write (now : ℤ) (run : RunId) (w : Write) : State :=
  { s with rows := Function.update s.rows run ((s.rows run).map (w.apply now)) }

def register (run : RunId) (worker : WorkerId) (tx : Tx) : RegisterOutcome × State :=
  let outcome := outcomeOf (s.effect run (.register worker tx))
  (outcome, (s.call run (.register worker tx)).emit (.registered run worker tx outcome))

def firstLoad (run : RunId) : State :=
  { s with
    runs := Function.update s.runs run ((s.runs run).map fun rw => { rw with firstLoad := true }) }

def leave (tx : Tx) : State :=
  { s with
    streams := Function.update s.streams tx ((s.streams tx).map fun stream =>
      { stream with ended := true }) }

-- The settings are persisted for a worker with a stable id, and only as far as they differ from the
-- defaults.
def putPoolOverride (worker : WorkerId) (o : PoolOverride) : State :=
  { s with
    overrides := Function.update s.overrides worker
      (if o = ⟨false, none, none⟩ then none else some o) }

end State

-- A section, with the sections of its task that it leads to.
def exec (cfg : Config) (env : Ambient) (s : State) : Section → State × List Section
  | .write run w        => (s.write env.now run w, [])
  | .send tx message    => (s.send tx message, [])
  | .trySend tx message => (if env.full then s else s.send tx message, [])
  | .reply r            => (s.emit (.replied r), [])
  | .register run worker tx =>
    let (outcome, s) := s.register run worker tx
    (s, afterRegister run worker tx outcome)
  | .assignmentFor run _ tx place setRunning =>
    (s, afterAssignmentFor run tx setRunning (s.assignmentFor run place))
  | .leave tx =>
    (s.leave tx, ((s.streams tx).map (·.closing tx)).getD [])
  | .getPoolOverride r tx =>
    (s, [.poolRegisterIdle r tx (if r.stableId then s.overrides r.workerId else none)])
  | .poolRegisterIdle r tx restored =>
    let pool := s.pool.registerIdle r.workerId tx r.capacityVus r.hostname r.stableId restored
    ({ s with pool }, [])
  | .ingestMetrics run => (s.firstLoad run, [])
  | .recordPhase run worker phase message =>
    let c := .recordPhase worker phase
    ((s.call run c).emit (.reported run worker phase),
      afterRecordPhase run worker message (s.effect run c))
  | .workerDisconnected run worker _ =>
    let c := .workerDisconnected worker
    (s.call run c, afterTornDown run s!"worker {worker} disconnected before completing the run"
      "worker disconnected before completing — fail-fast" (s.effect run c))
  | .failIncompleteRegistration run =>
    (s, afterMissing run ((s.runs run).bind RunWorkers.missing))
  | .failRunHung run reason abortMessage =>
    (s.call run .failRunHung, afterTornDown run reason abortMessage (s.effect run .failRunHung))
  | .cancelDispatchFailed run message e =>
    (s.setRun run none, fanOutAbort run (s.txs run) "worker dispatch failed" ++
      [.write run (.markFailed message), .reply (.spawnRun run (.error e))])
  | .abortRun run => (s, afterGetRow run (s.rows run))
  | .abort run    => (s, fanOutAbort run (s.txs run) "user requested abort")
  | .poolDisconnect worker conn =>
    let (assigned, pool) := s.pool.disconnect worker
    ({ s with pool }, (assigned.map (.workerDisconnected · worker conn)).toList)
  | .poolExclude worker reason =>
    let (assigned, pool) := s.pool.disconnect worker
    match s.pool.lookup worker with
    | some e =>
      ({ s with pool }, (assigned.map (.workerDisconnected · worker e.tx)).toList ++
        [.trySend e.tx (.disconnect reason), .reply (.poolExclude worker true)])
    | none => (s, [.reply (.poolExclude worker false)])
  | .poolSetControl worker drained capacityOverride label =>
    let pool := s.pool.setControl worker drained capacityOverride label
    match pool.lookup worker with
    | some e =>
      ({ s with pool },
        (if e.stable then
          [.putPoolOverride worker ⟨e.drained, e.capacityOverride, e.label⟩]
        else
          []) ++ [.reply (.poolSetControl worker true)])
    | none => (s, [.reply (.poolSetControl worker false)])
  | .putPoolOverride worker o => (s.putPoolOverride worker o, [])
  | .sweep worker tx isStale =>
    if isStale ∨ s.closed tx then
      (s, [.poolDisconnect worker tx])
    else
      (if env.full then s else s.send tx .ping, [])
  | .precheck l =>
    let (idle, achievable) := s.pool.achievableCapacity l.profile.poolWorkerCap
    let demand := l.profile.concurrencyDemand
    if cfg.poolMode ∧ ¬l.force ∧ 0 < idle ∧ achievable < demand then
      (s, [.reply (.spawnRun l.run (.error (.conflictJson achievable demand)))])
    else
      (s, [.insert l])
  | .insert l =>
    match s.rows l.run with
    | some _ => (s, [.reply (.spawnRun l.run (.error .db))])
    | none   =>
      let n := fanoutWorkerCount l.profile cfg.settings.workerCapacityVus
      (s.setRow l.run .inserted,
        if ¬cfg.poolMode then
          [.enqueue l n none none]
        else if l.force then
          [.reserveIdlePool l]
        else
          [.reserveIdlePoolCapacity l])
  | .reserveIdlePool l =>
    let order := iteration env.order s.pool
    let (reserved, pool) := s.pool.reserveIdlePool order l.run l.profile.poolWorkerCap
    ({ s with pool }, afterReserved l reserved none)
  | .reserveIdlePoolCapacity l =>
    let (reservation, pool) :=
      s.pool.reserveIdlePoolCapacity l.run l.profile.poolWorkerCap l.profile.concurrencyDemand
    ({ s with pool }, afterReserveCapacity l reservation)
  | .releasePoolReservation run workers message e =>
    ({ s with pool := s.pool.releasePoolReservation workers },
      [.cancelDispatchFailed run message e])
  | .enqueue l n counts reserved =>
    (s.setRun l.run (some (l.enqueued n counts)), afterEnqueue l.run n reserved)
  | .dispatch run _ => (s, afterDispatch run env.dispatchError)
  | .assignNext run [] => (s, [.reply (.spawnRun run (.ok ()))])
  | .assignNext run ((worker, tx) :: rest) =>
    let (outcome, s) := s.register run worker tx
    (s, afterPoolRegister run worker tx rest outcome)
  | .poolAssignmentFor run worker tx place setRunning rest =>
    (s, afterPoolAssignmentFor run worker tx setRunning rest (s.assignmentFor run place))
  | .pushAssignment run _ tx a setRunning rest =>
    if s.closed tx then
      (s, giveUpAssign run)
    else
      (s.emit (.sent tx (.assignment a)), startRunning run setRunning ++ [.assignNext run rest])

-- The message is dealt with by the task of the stream.
def receive (cfg : Config) (s : State) (tx : Tx) (stream : Stream) : WorkerMessage → State
  | .register r =>
    if ¬checkToken cfg r.token then
      s.setTask (.stream tx) [.send tx (.abort r.runId "authentication failed"), .leave tx]
    else if r.runId = "" then
      (s.setStream tx { stream with workerId := some r.workerId, poolConn := true }).setTask
        (.stream tx) [.getPoolOverride r tx]
    else
      (s.setStream tx { stream with workerId := some r.workerId, runId := some r.runId }).setTask
        (.stream tx) [.register r.runId r.workerId tx]
  | .pong            => s
  | .metricBatch run => s.setTask (.stream tx) [.ingestMetrics run]
  | .runStatus run phase message =>
    s.setTask (.stream tx)
      ((stream.workerId.map (.recordPhase run · phase message)).toList)

-- Requests of users, and the timers: the sweep of the heartbeat takes a snapshot of the pool.
inductive Trigger
  | spawnRun (l : Launch)
  | abortRun (run : RunId)
  | poolSetControl (worker : WorkerId) (drained : Option Bool)
    (capacityOverride : Option (Option U32)) (label : Option (Option String))
  | poolExclude (worker : WorkerId) (reason : String)
  | poolHeartbeatTick (order : List WorkerId) (isStale : WorkerId → Bool)
  | failIncompleteRegistration (run : RunId)
  | failRunHung (run : RunId) (reason abortMessage : String)

def Trigger.sections (pool : Pool) : Trigger → List Section
  | spawnRun l                       => [.precheck l]
  | abortRun run                     => [.abortRun run]
  | poolSetControl worker d c l      => [.poolSetControl worker d c l]
  | poolExclude worker reason        => [.poolExclude worker reason]
  | poolHeartbeatTick order isStale  =>
    (pool.txsOf (iteration order pool)).map fun w => .sweep w.1 w.2 (isStale w.1)
  | failIncompleteRegistration run   => [.failIncompleteRegistration run]
  | failRunHung run reason abortMessage => [.failRunHung run reason abortMessage]

-- The end of a stream is noticed by its task between two messages. A channel may be closed at any
-- time.
inductive Event
  | connect (tx : Tx)
  | receive (tx : Tx) (message : WorkerMessage)
  | eof (tx : Tx)
  | drop (tx : Tx)
  | trigger (n : ℕ) (t : Trigger)
  | run (t : Task) (env : Ambient)

namespace State

-- The stream, if its task waits for a message.
def waiting (s : State) (tx : Tx) : Option Stream :=
  (s.streams tx).filter fun stream => !stream.ended && (s.tasks (.stream tx)).isEmpty

-- An event that cannot happen leaves the state as it is.
def step (cfg : Config) (s : State) : Event → State
  | .connect tx =>
    match s.streams tx with
    | some _ => s
    | none   => s.setStream tx ⟨none, none, false, false⟩
  | .receive tx message =>
    match s.waiting tx with
    | some stream => receive cfg s tx stream message
    | none        => s
  | .eof tx =>
    match s.waiting tx with
    | some _ => s.setTask (.stream tx) [.leave tx]
    | none   => s
  | .drop tx      => { s with closed := Function.update s.closed tx true }
  | .trigger n t =>
    match s.tasks (.handler n) with
    | []     => s.setTask (.handler n) (t.sections s.pool)
    | _ :: _ => s
  | .run t env =>
    match s.tasks t with
    | []             => s
    | next :: rest =>
      let (s, sections) := exec cfg env s next
      s.setTask t (sections ++ rest)

def after (cfg : Config) (s : State) (events : List Event) : State :=
  Trace.run (step cfg) s events

end State

end Controller
