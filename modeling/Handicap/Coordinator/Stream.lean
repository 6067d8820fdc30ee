import Handicap.Coordinator.Run

open Store

-- How the rows of the bindings are streamed to a worker, after its assignment.
namespace Coordinator

-- A missing column yields the empty string.
def applyMappings (mappings : List Mapping) (source : StringMap) : StringMap :=
  mappings.foldl (fun out => fun
    | .column var column => out.insert var ((source.lookup column).getD "")
    | .literal var value => out.insert var value) ∅

def datasetBatchRows : ℕ := 1000

-- Whether the rows can be fetched and the channel has been closed, after so many rows.
structure Transfer where
  fetchFails : ℕ → Bool
  closed     : ℕ → Bool

-- The batches from the given position of the slice on. The stream is incomplete if rows cannot be
-- fetched or are missing, of which the worker is told, and if its channel is closed.
def streamFrom (rows : List StringMap) (t : Transfer) (run : RunId) (ws : WorkerStream)
    (sent : ℕ) : List Pb.ServerMessage × Bool :=
  if h : sent < ws.count then
    let limit := min datasetBatchRows (ws.count - sent)
    let src := getRowsRange rows (ws.offset + sent) limit
    if hs : t.fetchFails sent ∨ src.isEmpty then
      ([.abort run "dataset streaming incomplete"], false)
    else if t.closed sent then
      ([], false)
    else
      let (messages, complete) := streamFrom rows t run ws (sent + src.length)
      (.datasetBatch run (src.map (applyMappings ws.mappings)) ws.bindingIndex :: messages,
        complete)
  else
    ([], true)
termination_by ws.count - sent
decreasing_by
  have hn := List.length_pos_iff.mpr fun h => hs (.inr (List.isEmpty_iff.mpr h))
  exact Nat.sub_lt_sub_left h (Nat.lt_add_of_pos_right hn)

def streamDataset (rows : List StringMap) (t : Transfer) (run : RunId) (ws : WorkerStream) :
    List Pb.ServerMessage × Bool :=
  streamFrom rows t run ws 0

-- An incomplete binding ends the streaming.
def streamDatasets (datasets : String → List StringMap) (transfer : ℕ → Transfer) (run : RunId) :
    List WorkerStream → List Pb.ServerMessage
  | []         => []
  | ws :: rest =>
    if ws.count = 0 then
      streamDatasets datasets transfer run rest
    else
      let (messages, complete) :=
        streamDataset (datasets ws.datasetId) (transfer ws.bindingIndex) run ws
      if complete then messages ++ streamDatasets datasets transfer run rest else messages

end Coordinator
