import Handicap.Pb
import Handicap.Shard.Basic
import Mathlib.Data.List.AList

open Store

-- What the coordinator keeps for one run, and its critical sections: each function below is one
-- section under the lock of the run map, without the writes and the messages that follow it.
namespace Coordinator

abbrev RunId := String
abbrev WorkerId := String

-- The sending half of the channel to a worker, by the number of the stream it belongs to. All
-- clones of one channel are equal.
abbrev Tx := ℕ

structure PendingDataBinding where
  datasetId : String
  policy    : BindingPolicy
  seed      : U32
  mappings  : List Mapping
  rowCount  : ℕ
  deriving DecidableEq

structure PendingAssignment where
  scenarioYaml : String
  profile      : Pb.Profile
  env          : List (String × String)
  dataBindings : List PendingDataBinding
  deriving DecidableEq, Inhabited

-- The rows of one binding that are streamed to one worker.
structure WorkerStream where
  datasetId    : String
  mappings     : List Mapping
  offset       : ℕ
  count        : ℕ
  bindingIndex : ℕ
  deriving DecidableEq

structure WorkerEntry where
  shardIndex : ℕ
  vuOffset   : ℕ
  vuCount    : ℕ
  tx         : Tx
  phase      : Pb.Phase
  deriving DecidableEq

-- The cancellation tokens are flags that are never reset. The precomputed counts have an entry for
-- every expected worker.
structure RunWorkers where
  base              : PendingAssignment
  expected          : ℕ
  totalVus          : U32
  nextShard         : ℕ
  workers           : AList fun _ : WorkerId => WorkerEntry
  regDeadline       : Bool
  terminal          : Bool
  precomputedCounts : Option (Vector (ℕ × ℕ) expected)
  firstLoad         : Bool
  done              : Bool

inductive RegisterOutcome
  | assigned (shardIndex shardCount vuOffset vuCount : ℕ) (first : Bool)
  | resend (shardIndex shardCount vuOffset vuCount : ℕ)
  | reject
  | noRun
  deriving DecidableEq

-- How a report ends the run, with the channels of the workers to be aborted.
inductive Finalize
  | none
  | completed
  | failed (siblings : List Tx)
  | aborted
  deriving DecidableEq

-- The share of one shard of a total: in proportion to the weights, of which there is one for every
-- shard, or else even.
def shareOf (split : ℕ → List ℕ → List ℕ) (shardIndex shardCount : ℕ)
    (slotWeights : Option (List ℕ)) (total : U32) : U32 :=
  Fin.ofNat _ <|
    match slotWeights with
    | some w => (split total w)[shardIndex]?.getD 0
    | none   => (Shard.shardSplit total shardCount shardIndex).2

def reducePoolProfile (profile : Pb.Profile) (shardIndex shardCount vuCount : ℕ)
    (slotWeights : Option (List ℕ)) : Pb.Profile :=
  let isOpenLoop := profile.targetRps.isSome || !profile.stages.isEmpty
  let isCurve := !profile.vuStages.isEmpty
  let share split := shareOf split shardIndex shardCount slotWeights
  if shardCount ≤ 1 ∨ (!isOpenLoop ∧ !isCurve) then
    profile
  else if isOpenLoop then
    { profile with
      maxInFlight := some (Fin.ofNat _ vuCount)
      targetRps := profile.targetRps.map (share Shard.proportionalSplitMin1)
      stages := profile.stages.map fun s =>
        { s with target := share Shard.proportionalSplit s.target } }
  else
    { profile with
      vuStages := profile.vuStages.map fun s =>
        { s with target := share Shard.proportionalSplit s.target } }

-- The phase that is kept for a reported phase number.
def phaseOf (phase : ℤ) : Pb.Phase :=
  if phase = Pb.Phase.completed.toInt then
    .completed
  else if phase = Pb.Phase.failed.toInt then
    .failed
  else if phase = Pb.Phase.aborted.toInt then
    .aborted
  else
    .started

-- The VU offset and the VU count of a shard.
def slotOf {expected : ℕ} (totalVus : U32) (precomputed : Option (Vector (ℕ × ℕ) expected)) (i : ℕ)
    (h : i < expected) : ℕ × ℕ :=
  match precomputed with
  | some counts => counts[i]
  | none        => Shard.shardSplit totalVus expected i

namespace RunWorkers

def new (base : PendingAssignment) (expected : ℕ) (totalVus : U32)
    (precomputed : Option (Vector (ℕ × ℕ) expected)) : RunWorkers where
  base              := base
  expected          := expected
  totalVus          := totalVus
  nextShard         := 0
  workers           := ∅
  regDeadline       := false
  terminal          := false
  precomputedCounts := precomputed
  firstLoad         := false
  done              := false

variable (rw : RunWorkers)

def slot (i : ℕ) (h : i < rw.expected) : ℕ × ℕ :=
  slotOf rw.totalVus rw.precomputedCounts i h

-- The run with the next shard given to a new worker.
def addWorker (worker : WorkerId) (tx : Tx) (h : rw.nextShard < rw.expected) : RunWorkers :=
  let slot := rw.slot rw.nextShard h
  let workers := rw.workers.insert worker ⟨rw.nextShard, slot.1, slot.2, tx, .started⟩
  { rw with
    nextShard := rw.nextShard + 1
    workers := workers
    regDeadline := rw.regDeadline || workers.keys.length == rw.expected }

-- The first worker to get a shard is announced as such.
def register (worker : WorkerId) (tx : Tx) : RegisterOutcome × RunWorkers :=
  if rw.terminal then
    (.reject, rw)
  else
    match rw.workers.lookup worker with
    | some e => (.resend e.shardIndex rw.expected e.vuOffset e.vuCount, rw)
    | none   =>
      if h : rw.nextShard < rw.expected then
        let slot := rw.slot rw.nextShard h
        let first := rw.workers.keys.isEmpty
        (.assigned rw.nextShard rw.expected slot.1 slot.2 first, rw.addWorker worker tx h)
      else
        (.reject, rw)

def workerStream (shardCount shardIndex : ℕ) (b : PendingDataBinding) (i : ℕ) : WorkerStream :=
  let (offset, count) :=
    Shard.datasetSlice (b.policy = .unique) b.rowCount shardCount shardIndex
  ⟨b.datasetId, b.mappings, offset, count, i⟩

def slotWeights : Option (List ℕ) :=
  rw.precomputedCounts.map fun counts => counts.toList.map Prod.snd

def assignmentFor (runId : RunId) (shardIndex shardCount vuOffset vuCount : ℕ) :
    Pb.RunAssignment × List WorkerStream :=
  let a := rw.base
  let streams := a.dataBindings.mapIdx fun i b => workerStream shardCount shardIndex b i
  let dataBindings := List.zipWith
    (fun (b : PendingDataBinding) (s : WorkerStream) => Pb.DataBinding.mk b.policy b.seed s.count)
    a.dataBindings streams
  ({ runId, scenarioYaml := a.scenarioYaml
     profile := reducePoolProfile a.profile shardIndex shardCount vuCount rw.slotWeights
     env := a.env, shardIndex, shardCount, vuOffset, vuCount, dataBindings }, streams)

def setPhase (worker : WorkerId) (phase : Pb.Phase) : RunWorkers :=
  match rw.workers.lookup worker with
  | some e => { rw with workers := rw.workers.insert worker { e with phase } }
  | none   => rw

-- The channels of all workers of the run.
def txs : List Tx :=
  rw.workers.entries.map (·.2.tx)

-- The channels of all workers except one.
def siblings (worker : WorkerId) : List Tx :=
  (rw.workers.entries.filter (·.1 ≠ worker)).map (·.2.tx)

def allCompleted : Bool :=
  rw.workers.entries.all (·.2.phase = .completed)

-- The run is over, which also stops its watchdog.
def finish : RunWorkers :=
  { rw with terminal := true, done := true }

def recordPhase (worker : WorkerId) (phase : ℤ) : Finalize × RunWorkers :=
  let rw := rw.setPhase worker (phaseOf phase)
  if rw.terminal then
    (.none, rw)
  else if phase = Pb.Phase.failed.toInt then
    (.failed (rw.siblings worker), rw.finish)
  else if phase = Pb.Phase.aborted.toInt then
    (.aborted, rw.finish)
  else if phase = Pb.Phase.completed.toInt ∧ rw.allCompleted ∧
      rw.workers.keys.length = rw.expected then
    (.completed, rw.finish)
  else
    (.none, rw)

-- A worker that has reported a terminal phase keeps its entry, so that it still counts towards the
-- completion of the run. An unknown worker is harmless.
def workerDisconnected (worker : WorkerId) : Option (List Tx) × RunWorkers :=
  let wasTerminalPhase := ((rw.workers.lookup worker).map (·.phase.isTerminal)).getD true
  if rw.terminal ∨ wasTerminalPhase then
    (none, rw)
  else
    let rw := { rw with workers := rw.workers.erase worker }
    (some rw.txs, rw.finish)

def failRunHung : Option (List Tx) × RunWorkers :=
  if rw.terminal then (none, rw) else (some rw.txs, rw.finish)

-- The registered and the expected number of workers, where the deadline finds some missing.
def missing : Option (ℕ × ℕ) :=
  if ¬rw.terminal ∧ rw.workers.keys.length < rw.expected then
    some (rw.workers.keys.length, rw.expected)
  else
    none

end RunWorkers

def messageMaxChars : ℕ :=
  1000

def truncateMessage (s : String) : String :=
  if s.length ≤ messageMaxChars then
    s
  else
    String.ofList (s.toList.take messageMaxChars) ++ "…"

def failureMessage (worker : WorkerId) (raw : String) : String :=
  if raw.toList.all isWhiteSpace then
    s!"worker {worker} reported failure"
  else
    truncateMessage raw

end Coordinator
