import Handicap.Library.Trace
import Handicap.Settings.Basic

-- The requests that change a setting, side by side. Each of them is checked, then writes the
-- database, and then changes the snapshot.
namespace Settings

inductive Request
  | put (key : String) (value : ℤ)
  | delete (key : String)
  deriving DecidableEq

namespace Request

def key : Request → String
  | put key _ | delete key => key

-- The two settings of the heartbeat are checked together, with the other one's value in force.
def checkPair (s : SettingsState) (key : String) (value : ℤ) : Except String Unit :=
  if key = heartbeatInterval then
    checkHeartbeatPair (asU64 value) s.poolStaleTimeoutSeconds
  else if key = staleTimeout then
    checkHeartbeatPair s.poolHeartbeatIntervalSeconds (asU64 value)
  else
    .ok ()

def check (s : SettingsState) : Request → Except String Unit
  | put key value => do
    validate key value
    checkPair s key value
  | delete key    =>
    match findDef key with
    | none   => .error s!"알 수 없는 설정 키: {key}"
    | some d =>
      if ¬d.isMutable then
        .error s!"'{d.label}'은(는) 변경할 수 없습니다"
      else
        checkPair s key ((s.seedOf key).getD 0)

end Request

-- A value in the database is a text.
inductive StoredValue
  | number (v : ℤ)
  | text (s : String)
  deriving DecidableEq

abbrev Db := Table String StoredValue

-- A text that is no number is ignored.
def loadOverrides (db : Db) (key : String) : Option ℤ :=
  (db.lookup key).bind fun
    | .number v => some v
    | .text _   => none

def Request.write (db : Db) : Request → Db
  | put key value => db.insert key (.number value)
  | delete key    => db.erase key

def Request.value (s : SettingsState) : Request → ℤ
  | put _ value => value
  | delete key  => (s.seedOf key).getD 0

-- What the row of a key holds after the write.
def Request.stored : Request → Option StoredValue
  | put _ value => some (.number value)
  | delete _    => none

def Request.apply (s : SettingsState) : Request → SettingsState
  | put key value => s.applyOverride key value
  | delete key    => s.revert key

structure Handler where
  request : Request
  written : Bool
  deriving DecidableEq

-- The keys that requests have changed in the snapshot are kept.
structure Server where
  db       : Db
  state    : SettingsState
  handlers : Table ℕ Handler
  applied  : List String

inductive Action
  | request (task : ℕ) (r : Request)
  | write (task : ℕ) (ok : Bool)
  | apply (task : ℕ)
  deriving DecidableEq

namespace Server

def start (db : Db) (cliSeeds : List (String × ℤ)) : Server :=
  ⟨db, .build (loadOverrides db) cliSeeds, ∅, []⟩

variable (s : Server)

-- A request that is refused or cannot write the database ends with an error. An action that cannot
-- happen leaves the state as it is.
def step : Action → Server
  | .request task r =>
    if task ∈ s.handlers ∨ ¬(r.check s.state).isOk then
      s
    else
      { s with handlers := s.handlers.insert task ⟨r, false⟩ }
  | .write task ok  =>
    match s.handlers.lookup task with
    | some ⟨r, false⟩ =>
      if ok then
        { s with db := r.write s.db, handlers := s.handlers.insert task ⟨r, true⟩ }
      else
        { s with handlers := s.handlers.erase task }
    | _ => s
  | .apply task     =>
    match s.handlers.lookup task with
    | some ⟨r, true⟩ =>
      { s with
        state    := r.apply s.state
        handlers := s.handlers.erase task
        applied  := s.applied ++ [r.key] }
    | _ => s

def run (db : Db) (cliSeeds : List (String × ℤ)) (actions : List Action) : Server :=
  Trace.run step (start db cliSeeds) actions

end Server

end Settings
