-- The part of the runs table that tells how a run ended, and the updates of one row of it.
namespace Store

inductive RunStatus
  | pending
  | running
  | completed
  | failed
  | aborted
  deriving DecidableEq

namespace RunStatus

def asStr : RunStatus → String
  | pending   => "pending"
  | running   => "running"
  | completed => "completed"
  | failed    => "failed"
  | aborted   => "aborted"

def isActive : RunStatus → Bool
  | pending | running            => true
  | completed | failed | aborted => false

end RunStatus

structure RunRow where
  status    : RunStatus
  startedAt : Option Int
  endedAt   : Option Int
  message   : Option String
  deriving DecidableEq

namespace RunRow

def inserted : RunRow :=
  ⟨.pending, none, none, none⟩

variable (row : RunRow)

-- An aborted run is left as it is.
def setStatus (status : RunStatus) (started ended : Option Int) : RunRow :=
  if row.status = .aborted then
    row
  else
    { row with
      status := status
      startedAt := started <|> row.startedAt
      endedAt := ended <|> row.endedAt }

def markAborted (now : Int) : RunRow :=
  { row with status := .aborted, endedAt := some now }

def markFailed (now : Int) (message : String) : RunRow :=
  { row with status := .failed, endedAt := some now, message := some message }

def markFailedIfActive (now : Int) (message : String) : RunRow :=
  if row.status.isActive then row.markFailed now message else row

end RunRow

-- The updates that the controller makes, each under the conditions of its own statement.
inductive Write
  | setStatus (status : RunStatus)
  | markAborted
  | markFailed (message : String)
  | markFailedIfActive (message : String)
  deriving DecidableEq

-- The start is recorded with the status of a running run, and the end with any other one.
def Write.apply (w : Write) (now : Int) (row : RunRow) : RunRow :=
  match w with
  | setStatus .running         => row.setStatus .running (some now) none
  | setStatus status           => row.setStatus status none (some now)
  | markAborted                => row.markAborted now
  | markFailed message         => row.markFailed now message
  | markFailedIfActive message => row.markFailedIfActive now message

end Store
