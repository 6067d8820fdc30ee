import Handicap.Engine.Dataset
import Handicap.Library.Word
import Handicap.Pb
import Mathlib.Logic.Function.Basic

open Store

-- The loading stage of a worker, between its assignment and the run of the engine.
namespace Worker

-- A message from the controller, or the cancellation of the run.
inductive Inbound
  | message (m : Pb.ServerMessage)
  | cancelled

inductive WorkerError
  | cancelled
  | datasetIncomplete (got expected : ℕ)
  deriving DecidableEq

-- Rows are put into the bucket of their binding until there are as many of them as were promised.
-- The rows of an unknown binding are ignored, and so are other messages. The inbound events end
-- where the stream is closed.
def fillBuckets (runId : String) (totalExpected totalGot : ℕ) (buckets : List (List StringMap))
    (inbound : List Inbound) : Except WorkerError (List (List StringMap)) :=
  if totalExpected ≤ totalGot then
    .ok buckets
  else
    match inbound with
    | []                => .error (.datasetIncomplete totalGot totalExpected)
    | .cancelled :: _   => .error .cancelled
    | .message m :: inbound =>
      match m with
      | .datasetBatch _ rows i =>
        if i < buckets.length then
          fillBuckets runId totalExpected (totalGot + rows.length) (buckets.modify i (· ++ rows))
            inbound
        else
          fillBuckets runId totalExpected totalGot buckets inbound
      | .abort id _ =>
        if id = runId then
          .error .cancelled
        else
          fillBuckets runId totalExpected totalGot buckets inbound
      | _ => fillBuckets runId totalExpected totalGot buckets inbound

-- A row is a map of 24 bytes, and a vector of more than `isize::MAX` bytes is a panic.
def withCapacity (n : ℕ) : Option (List StringMap) :=
  if n * 24 < 2 ^ 63 then some [] else none

-- There is no result if the task panics. The counts have 64 bits, and so has their sum.
def loadDatasets (expected : List ℕ) (runId : String) (inbound : List Inbound) :
    Option (Except WorkerError (List (List StringMap))) := do
  let buckets ← expected.mapM withCapacity
  let totalExpected ← Word.checkedSum 64 expected
  return fillBuckets runId totalExpected 0 buckets inbound

-- The datasets of an assignment. A worker that is promised no rows does not wait for any.
def loadAssignment (assignment : Pb.RunAssignment) (inbound : List Inbound) :
    Option (Except WorkerError (List Engine.DataSet)) :=
  let bindings := assignment.dataBindings
  if bindings.any fun b => 0 < b.rowCount then do
    let _ ← Word.checkedSum 64 (bindings.map (·.rowCount))
    let loaded ← loadDatasets (bindings.map (·.rowCount)) assignment.runId inbound
    return loaded.map fun allRows =>
      List.zipWith (fun b rows => ⟨b.policy, b.seed, rows⟩) bindings allRows
  else
    return .ok []

section

open Engine (DataSet)

-- The draws of all VUs of all workers, in any order. Every worker has a counter for each of its
-- bindings, which its VUs share and which a draw reads and advances at once.
structure Draw where
  worker  : String
  binding : ℕ
  vuId    : U32
  iterId  : U32
  deriving DecidableEq

structure Draws where
  cursors : String → ℕ → ℕ
  log     : List (Draw × Option ℕ)

namespace Draws

def initial : Draws where
  cursors := fun _ _ => 0
  log     := []

-- A worker draws from its own datasets only, if it has loaded any.
def step (genRange : ℕ → ℕ → ℕ) (data : String → List DataSet) (s : Draws) (d : Draw) : Draws :=
  match (data d.worker)[d.binding]? with
  | none    => s
  | some ds =>
    let cursors := s.cursors d.worker
    let (row, cursor) := ds.selectIndex genRange d.vuId d.iterId (cursors d.binding)
    { cursors := Function.update s.cursors d.worker (Function.update cursors d.binding cursor)
      log     := s.log ++ [(d, row)] }

def run (genRange : ℕ → ℕ → ℕ) (data : String → List DataSet) (draws : List Draw) : Draws :=
  draws.foldl (step genRange data) initial

-- What one worker has drawn from one binding.
def drawn (s : Draws) (worker : String) (binding : ℕ) : List (Option ℕ) :=
  s.log.filterMap fun (d, row) =>
    if d.worker = worker ∧ d.binding = binding then some row else none

end Draws

end

end Worker
