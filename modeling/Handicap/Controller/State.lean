import Handicap.Api.Launch
import Handicap.Coordinator.Calls
import Handicap.Library.Tasks
import Handicap.Store.Runs

open Store Coordinator Api

-- The state that the handlers of the controller share, and the sections that they are made of. A
-- section runs without an await: it holds one lock, or updates one row, or sends one message. It
-- carries what the rest of its handler needs. Besides, the loss of a worker carries the channel of
-- the connection that is lost, which the source does not pass on and no section looks at.
namespace Controller

structure Config where
  workerToken : Option String
  poolMode    : Bool
  settings    : Settings

-- A task reads the messages of one stream, or serves a request or a timer.
inductive Task
  | stream (tx : Tx)
  | handler (n : ℕ)
  deriving DecidableEq

-- What the task of a stream remembers about it.
structure Stream where
  runId    : Option RunId
  workerId : Option WorkerId
  poolConn : Bool
  ended    : Bool
  deriving DecidableEq

structure Register where
  workerId    : WorkerId
  runId       : RunId
  capacityVus : U32
  token       : String
  hostname    : String
  stableId    : Bool
  deriving DecidableEq

inductive WorkerMessage
  | register (r : Register)
  | pong
  | metricBatch (runId : RunId)
  | runStatus (runId : RunId) (phase : ℤ) (message : String)
  deriving DecidableEq

-- The place of a worker among the shards of a run.
structure Place where
  shardIndex : ℕ
  shardCount : ℕ
  vuOffset   : ℕ
  vuCount    : ℕ
  deriving DecidableEq

inductive Reply
  | abortRun (run : RunId) (outcome : Except ApiError Unit)
  | spawnRun (run : RunId) (outcome : Except ApiError Unit)
  | poolSetControl (worker : WorkerId) (found : Bool)
  | poolExclude (worker : WorkerId) (found : Bool)

-- What can be seen of a run of the controller: what it sends and replies, and the registrations and
-- reports of workers that it deals with.
inductive Output
  | sent (tx : Tx) (message : Pb.ServerMessage)
  | registered (run : RunId) (worker : WorkerId) (tx : Tx) (outcome : RegisterOutcome)
  | reported (run : RunId) (worker : WorkerId) (phase : ℤ)
  | replied (reply : Reply)

inductive Section
  -- Sections of several handlers.
  | write (run : RunId) (w : Write)
  | send (tx : Tx) (message : Pb.ServerMessage)
  | trySend (tx : Tx) (message : Pb.ServerMessage)
  | reply (r : Reply)
  -- A stream.
  | register (run : RunId) (worker : WorkerId) (tx : Tx)
  | assignmentFor (run : RunId) (worker : WorkerId) (tx : Tx) (place : Place) (setRunning : Bool)
  | leave (tx : Tx)
  | getPoolOverride (r : Register) (tx : Tx)
  | poolRegisterIdle (r : Register) (tx : Tx) (restored : Option PoolOverride)
  | ingestMetrics (run : RunId)
  | recordPhase (run : RunId) (worker : WorkerId) (phase : ℤ) (message : String)
  -- The end of a run.
  | workerDisconnected (run : RunId) (worker : WorkerId) (conn : Tx)
  | failIncompleteRegistration (run : RunId)
  | failRunHung (run : RunId) (reason abortMessage : String)
  | cancelDispatchFailed (run : RunId) (message : String) (e : ApiError)
  | abortRun (run : RunId)
  | abort (run : RunId)
  -- The pool.
  | poolDisconnect (worker : WorkerId) (conn : Tx)
  | poolExclude (worker : WorkerId) (reason : String)
  | poolSetControl (worker : WorkerId) (drained : Option Bool)
    (capacityOverride : Option (Option U32)) (label : Option (Option String))
  | putPoolOverride (worker : WorkerId) (o : PoolOverride)
  | sweep (worker : WorkerId) (tx : Tx) (isStale : Bool)
  -- A launch.
  | precheck (l : Launch)
  | insert (l : Launch)
  | reserveIdlePool (l : Launch)
  | reserveIdlePoolCapacity (l : Launch)
  | releasePoolReservation (run : RunId) (workers : List (WorkerId × Tx)) (message : String)
    (e : ApiError)
  | enqueue (l : Launch) (n : ℕ) (counts : Option (Vector (ℕ × ℕ) n))
    (reserved : Option (List (WorkerId × Tx)))
  | dispatch (run : RunId) (n : ℕ)
  | assignNext (run : RunId) (reserved : List (WorkerId × Tx))
  | poolAssignmentFor (run : RunId) (worker : WorkerId) (tx : Tx) (place : Place)
    (setRunning : Bool) (rest : List (WorkerId × Tx))
  | pushAssignment (run : RunId) (worker : WorkerId) (tx : Tx) (a : Pb.RunAssignment)
    (setRunning : Bool) (rest : List (WorkerId × Tx))

-- The runs and the pool are the two maps of the coordinator; the rows and the overrides are tables.
-- A closed channel has lost its receiver.
structure State where
  runs      : RunId → Option RunWorkers
  pool      : Pool
  rows      : RunId → Option RunRow
  overrides : WorkerId → Option PoolOverride
  streams   : Tx → Option Stream
  closed    : Tx → Bool
  tasks     : Task → List Section
  log       : List Output

namespace State

def init (rows : RunId → Option RunRow) (overrides : WorkerId → Option PoolOverride) : State where
  runs      := fun _ => none
  pool      := ∅
  rows      := rows
  overrides := overrides
  streams   := fun _ => none
  closed    := fun _ => false
  tasks     := fun _ => []
  log       := []

variable (s : State)

def setRun (run : RunId) (rw : Option RunWorkers) : State :=
  { s with runs := Function.update s.runs run rw }

def setRow (run : RunId) (row : RunRow) : State :=
  { s with rows := Function.update s.rows run (some row) }

def setStream (tx : Tx) (stream : Stream) : State :=
  { s with streams := Function.update s.streams tx (some stream) }

def setTask (t : Task) (sections : List Section) : State :=
  { s with tasks := Function.update s.tasks t sections }

def emit (o : Output) : State :=
  { s with log := s.log ++ [o] }

-- A call on a run of the map, if it is there.
def call (run : RunId) (c : Call) : State :=
  { s with runs := Function.update s.runs run ((s.runs run).map fun rw => (rw.exec c).2) }

def effect (run : RunId) (c : Call) : Option Effect :=
  (s.runs run).map fun rw => (rw.exec c).1

def send (tx : Tx) (message : Pb.ServerMessage) : State :=
  { s with log := if s.closed tx then s.log else s.log ++ [.sent tx message] }

end State

end Controller
