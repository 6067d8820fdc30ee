import Handicap.Coordinator.Run
import Handicap.Library.Trace

-- The calls that the handlers make on one run, in any order.
namespace Coordinator

inductive Call
  | register (worker : WorkerId) (tx : Tx)
  | recordPhase (worker : WorkerId) (phase : ℤ)
  | workerDisconnected (worker : WorkerId)
  | failRunHung
  deriving DecidableEq

-- What a call returns to its handler. The last case is that of a disconnected worker and of a run
-- that hangs.
inductive Effect
  | registered (outcome : RegisterOutcome)
  | recorded (decision : Finalize)
  | tornDown (siblings : Option (List Tx))
  deriving DecidableEq

inductive Ending
  | completed
  | failed
  | aborted
  deriving DecidableEq

-- The ending of the run that is chosen by a call.
def Effect.ending : Effect → Option Ending
  | recorded .completed  => some .completed
  | recorded (.failed _) => some .failed
  | recorded .aborted    => some .aborted
  | tornDown (some _)    => some .failed
  | _                    => none

-- The channels that the handler of a call sends AbortRun to.
def Effect.aborts : Effect → List Tx
  | recorded (.failed siblings) => siblings
  | tornDown (some siblings)    => siblings
  | _                           => []

-- The shard that a worker is given.
structure Grant where
  worker     : WorkerId
  shardIndex : ℕ
  vuOffset   : ℕ
  vuCount    : ℕ
  deriving DecidableEq

def grantOf : Call × Effect → Option Grant
  | (.register worker _, .registered (.assigned shardIndex _ vuOffset vuCount _)) =>
    some ⟨worker, shardIndex, vuOffset, vuCount⟩
  | _ => none

namespace RunWorkers

variable (rw : RunWorkers)

def exec : Call → Effect × RunWorkers
  | .register worker tx        => (rw.register worker tx).map .registered id
  | .recordPhase worker phase  => (rw.recordPhase worker phase).map .recorded id
  | .workerDisconnected worker => (rw.workerDisconnected worker).map .tornDown id
  | .failRunHung               => rw.failRunHung.map .tornDown id

-- The run after the calls.
def after (calls : List Call) : RunWorkers :=
  Trace.run (fun rw c => (rw.exec c).2) rw calls

-- The calls with what they returned.
def history : RunWorkers → List Call → List (Call × Effect)
  | _,  []         => []
  | rw, c :: calls => (c, (rw.exec c).1) :: history (rw.exec c).2 calls

def endings (calls : List Call) : List Ending :=
  (rw.history calls).filterMap (·.2.ending)

def grants (calls : List Call) : List Grant :=
  (rw.history calls).filterMap grantOf

-- The workers that have been given a shard.
def members (calls : List Call) : List WorkerId :=
  (rw.grants calls).map Grant.worker

end RunWorkers

-- The phase that a worker reports with a call.
def reportOf (worker : WorkerId) : Call → Option ℤ
  | .recordPhase w phase => if w = worker then some phase else none
  | _                    => none

-- The phase that a worker has reported last.
def lastReport (worker : WorkerId) : List Call → Option ℤ :=
  List.foldl (fun last c => reportOf worker c <|> last) none

-- One entry of the run map over its life: besides the calls on the run itself, a failed dispatch
-- removes it, and a user abort reads it.
inductive Request
  | call (c : Call)
  | cancelDispatchFailed
  | abort
  deriving DecidableEq

-- The entry, with the channels that have been sent AbortRun for the run so far, and with the ending
-- that the coordinator has chosen.
structure Managed where
  run    : Option RunWorkers
  aborts : List Tx
  ending : Option Ending

namespace Managed

def new (run : RunWorkers) : Managed :=
  ⟨some run, [], none⟩

-- The first ending stays.
def step (m : Managed) (r : Request) : Managed :=
  match m.run with
  | none    => m
  | some rw =>
    match r with
    | .call c =>
      let (effect, rw) := rw.exec c
      ⟨some rw, m.aborts ++ effect.aborts, m.ending <|> effect.ending⟩
    | .cancelDispatchFailed => ⟨none, m.aborts ++ rw.txs, m.ending <|> some .failed⟩
    | .abort                => { m with aborts := m.aborts ++ rw.txs }

def after (run : RunWorkers) (requests : List Request) : Managed :=
  Trace.run step (new run) requests

end Managed

end Coordinator
