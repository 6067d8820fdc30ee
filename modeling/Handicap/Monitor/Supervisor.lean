import Handicap.Library.Table
import Handicap.Library.Trace
import Handicap.Monitor.Config
import Mathlib.Data.List.DropRight

-- The supervisor of the boards, which runs a loop for every unit of a board that is enabled. An
-- action is what a task does between two of its awaits, or a statement of a request. An action that
-- cannot happen leaves the state as it is.
namespace Monitor

def bufferCap              := 300
def initialStepBudgetSecs  := 152

inductive Verdict
  | ok
  | fail
  | configError
  | upstreamFailed
  | branchSkipped
  deriving DecidableEq

structure CheckResult where
  atMs      : ℤ
  verdict   : Verdict
  latencyMs : Option ℕ
  reason    : Option String
  detail    : Option String
  display   : List (Option String)
  deriving DecidableEq

-- What is kept of a check. The panels of a unit share the body.
structure CheckRecord (Body : Type) where
  atMs   : ℤ
  result : CheckResult
  body   : Body

def buildRecord {Body : Type} (body : Body) (result : CheckResult) : CheckRecord Body where
  atMs := result.atMs
  result
  body

structure PanelBuf (Body : Type) where
  results    : List CheckResult := []
  records    : List (CheckRecord Body) := []
  running    : Bool := false
  budgetSecs : ℕ := 0

def initialBudgetSecs (p : PanelConfig) : ℕ :=
  if p.stepId.isSome then initialStepBudgetSecs else p.timeoutSeconds

namespace PanelBuf

variable {Body : Type} (b : PanelBuf Body)

-- The new result takes the place of the oldest one if the buffer is full. There are as many records
-- as bars.
def finishRound (result : CheckResult) (record : CheckRecord Body) (barCount budgetSecs : ℕ) :
    PanelBuf Body where
  results := (if bufferCap ≤ b.results.length then b.results.tail else b.results) ++ [result]
  records := (b.records ++ [record]).rtake barCount
  running := false
  budgetSecs

end PanelBuf

-- The buffer of a panel, and its number of bars.
structure Member where
  buf      : ℕ
  barCount : ℕ
  deriving DecidableEq

-- Where a loop waits. A loop is ready when it has been spawned and when it wakes up. The results of
-- a round are pushed one by one; the panels without one are left.
inductive LoopStage (Body : Type)
  | ready
  | checking
  | finishing (rest : List (Member × CheckResult)) (left : List Member) (body : Body) (budgetSecs : ℕ)
  | sleeping
  | ended

structure UnitLoop (Body : Type) where
  plan          : UnitPlan
  recordLimitKb : ℕ
  members       : List Member
  token         : ℕ
  aborted       : Bool
  stage         : LoopStage Body

def UnitLoop.alive {Body : Type} (l : UnitLoop Body) : Bool :=
  match l.stage with
  | .ended => false
  | _      => true

-- What a check of the unit returns. A panel on its own has one result.
def UnitPlan.round (plan : UnitPlan) (results : List CheckResult) (budgetSecs : ℕ) :
    List CheckResult × ℕ :=
  match plan with
  | .whole p => (results.take 1, p.timeoutSeconds)
  | .steps _ => (results, budgetSecs)

structure BoardRow where
  config  : BoardConfig
  enabled : Bool
  deriving DecidableEq

-- The loops of one generation, which share a token.
structure Running where
  token   : ℕ
  handles : List ℕ

-- What the holder of the lock of a board has left to do: a reconcile reads the row, waits for the
-- old loops and installs the new ones. The call that stops everything only waits.
inductive Section
  | read
  | stop (row : Option BoardRow) (handles : List ℕ)
  | install (config : BoardConfig)
  | drain (call : ℕ) (handles : List ℕ)

namespace Section

-- The loops that are waited for.
def handles : Section → List ℕ
  | stop _ handles  => handles
  | drain _ handles => handles
  | _               => []

def setHandles (handles : List ℕ) : Section → Section
  | stop row _   => stop row handles
  | drain call _ => drain call handles
  | op           => op

end Section

-- A board with its row, the requests that have not called a reconcile yet, the callers that wait
-- for one, the reconciles that are spawned and those that wait for the lock.
structure Board (Body : Type) where
  row       : Option BoardRow
  requests  : ℕ
  callers   : ℕ := 0
  spawned   : ℕ := 0
  waiting   : ℕ := 0
  op        : Option Section := none
  running   : Option Running := none
  view      : Option (Table String ℕ) := none
  bufs      : List (PanelBuf Body) := []
  loops     : List (UnitLoop Body) := []
  tokens    : ℕ := 0
  cancelled : List ℕ := []

-- The buffers while the new loops are spawned: those that are left of the old panels and those that
-- the new ones have.
structure Handover (Body : Type) where
  old  : Table String ℕ
  bufs : List (PanelBuf Body)
  view : Table String ℕ

namespace Handover

variable {Body : Type} (h : Handover Body)

-- A panel that was there keeps its buffer.
def panel (p : PanelConfig) : Handover Body × Member :=
  match h.old.lookup p.id with
  | some i =>
    ({ old  := h.old.erase p.id
       bufs := h.bufs.modify i fun b => { b with budgetSecs := initialBudgetSecs p }
       view := h.view.insert p.id i }, ⟨i, p.barCount⟩)
  | none   =>
    ({ h with
       bufs := h.bufs ++ [{ budgetSecs := initialBudgetSecs p }]
       view := h.view.insert p.id h.bufs.length }, ⟨h.bufs.length, p.barCount⟩)

def panels : Handover Body → List PanelConfig → Handover Body × List Member
  | h, []      => (h, [])
  | h, p :: ps =>
    let (h₁, m)  := h.panel p
    let (h₂, ms) := h₁.panels ps
    (h₂, m :: ms)

-- The loops of the units, none of which has started.
def units (recordLimitKb token : ℕ) :
    Handover Body → List UnitPlan → Handover Body × List (UnitLoop Body)
  | h, []            => (h, [])
  | h, plan :: plans =>
    let (h₁, members) := h.panels plan.panels
    let (h₂, loops)   := h₁.units recordLimitKb token plans
    (h₂, { plan, recordLimitKb, members, token, aborted := false, stage := .ready } :: loops)

end Handover

-- The requests of a board, the reconciles and the loops.
inductive BoardAction (Body : Type)
  | insert (new : ℕ → String) (name : String) (config : BoardConfig)
  | edit (new : ℕ → String) (name : String) (config : BoardConfig)
  | setEnabled (enabled : Bool)
  | delete
  | resume
  | reconcile
  | leave
  | acquire
  | read
  | joined
  | abort
  | decide
  | install
  | begin (i : ℕ)
  | checked (i : ℕ) (results : List CheckResult) (body : Body) (budgetSecs : ℕ)
  | finish (i : ℕ)
  | wake (i : ℕ)
  | exit (i : ℕ)

namespace Board

variable {Body : Type} (lib : ConfigLib) (root : Bool) (b : Board Body)

def goto (i : ℕ) (stage : LoopStage Body) : Board Body :=
  { b with loops := b.loops.modify i ({ · with stage }) }

def setRunning (running : Bool) (members : List Member) : Board Body :=
  { b with
    bufs := members.foldl (fun bufs m => bufs.modify m.buf ({ · with running })) b.bufs }

def isCancelled (token : ℕ) : Bool :=
  root || token ∈ b.cancelled

-- A row is written in its normal form, and its writer calls a reconcile then.
def write (row : Option BoardRow) : Board Body :=
  { b with row, requests := b.requests + 1 }

def edit (new : ℕ → String) (name : String) (config : BoardConfig) (row : BoardRow) : Board Body :=
  match validateAndNormalize lib new name config with
  | .ok (_, config) => b.write (some { row with config })
  | .error _        => b

-- A board that is new is not enabled, so that there is nothing to reconcile.
def insert (new : ℕ → String) (name : String) (config : BoardConfig) : Board Body :=
  match validateAndNormalize lib new name config with
  | .ok (_, config) => { b with row := some { config, enabled := false } }
  | .error _        => b

-- The loops that were running are cancelled, and are waited for by the holder of the lock.
def take (op : List ℕ → Section) : Board Body :=
  match b.running with
  | some r => { b with op := op r.handles, running := none, cancelled := r.token :: b.cancelled }
  | none   => { b with op := op [] }

-- Whether the first of the loops that are waited for has ended.
def hasEnded (i : ℕ) : Bool :=
  b.loops[i]?.all (!·.alive)

def joined (op : Section) : Board Body :=
  match op.handles with
  | i :: handles => if b.hasEnded i then { b with op := some (op.setHandles handles) } else b
  | []           => b

-- A loop that takes too long is aborted.
def abort (op : Section) : Board Body :=
  match op.handles with
  | i :: _ => { b with loops := b.loops.modify i ({ · with aborted := true }) }
  | []     => b

-- The lock is released when there is nothing to run.
def decide (row : Option BoardRow) : Board Body :=
  match row.filter fun r => r.enabled && !root with
  | some r => { b with op := some (.install r.config) }
  | none   => { b with op := none, view := none }

def install (config : BoardConfig) : Board Body :=
  let h : Handover Body   := { old := b.view.getD ∅, bufs := b.bufs, view := ∅ }
  let (h, loops)          := h.units config.recordLimitKb b.tokens (planUnits config)
  { b with
    op      := none
    running := some ⟨b.tokens, List.range' b.loops.length loops.length⟩
    view    := some h.view
    bufs    := h.bufs
    loops   := b.loops ++ loops
    tokens  := b.tokens + 1 }

def checked (i : ℕ) (l : UnitLoop Body) (results : List CheckResult) (body : Body) (budgetSecs : ℕ) :
    Board Body :=
  let (results, budgetSecs) := l.plan.round results budgetSecs
  b.goto i (.finishing (l.members.zip results) (l.members.drop results.length) body budgetSecs)

def push (m : Member) (result : CheckResult) (body : Body) (budgetSecs : ℕ) : Board Body :=
  { b with
    bufs := b.bufs.modify m.buf
      (·.finishRound result (buildRecord body result) m.barCount budgetSecs) }

-- A loop ends at an await, when its token is cancelled or it is aborted.
def exit (i : ℕ) (l : UnitLoop Body) : Board Body :=
  match l.stage with
  | .ready    => if l.aborted then b.goto i .ended else b
  | .checking =>
    if l.aborted ∨ b.isCancelled root l.token then (b.setRunning false l.members).goto i .ended
    else b
  | .sleeping => if l.aborted ∨ b.isCancelled root l.token then b.goto i .ended else b
  | _         => b

def loopStep (i : ℕ) (l : UnitLoop Body) : BoardAction Body → Board Body
  | .begin _                       =>
    match l.stage with
    | .ready => (b.setRunning true l.members).goto i .checking
    | _      => b
  | .checked _ results body budget =>
    match l.stage with
    | .checking => b.checked i l results body budget
    | _         => b
  | .finish _                      =>
    match l.stage with
    | .finishing ((m, result) :: rest) left body budget =>
      (b.push m result body budget).goto i (.finishing rest left body budget)
    | .finishing [] left _ _                            =>
      (b.setRunning false left).goto i .sleeping
    | _                                                 => b
  | .wake _                        =>
    match l.stage with
    | .sleeping => b.goto i .ready
    | _         => b
  | .exit _                        => b.exit root i l
  | _                              => b

-- The action of a loop.
def withLoop (i : ℕ) (a : BoardAction Body) : Board Body :=
  match b.loops[i]? with
  | some l => b.loopStep root i l a
  | none   => b

-- The action of the holder of the lock.
def opStep : Section → BoardAction Body → Board Body
  | .read, .read             => b.take (.stop b.row)
  | .stop row [], .decide    => b.decide root row
  | .install config, .install => b.install config
  | op, .joined              => b.joined op
  | op, .abort               => b.abort op
  | _, _                     => b

def step (a : BoardAction Body) : Board Body :=
  match a with
  | .insert new name config => if b.row = none then b.insert lib new name config else b
  | .edit new name config   => b.row.elim b (b.edit lib new name config)
  | .setEnabled enabled     => b.row.elim b fun row => b.write (some { row with enabled })
  | .delete                 => b.row.elim b fun _ => b.write none
  | .resume                 => { b with requests := b.requests + 1 }
  | .reconcile              =>
    if 0 < b.requests then
      { b with requests := b.requests - 1, callers := b.callers + 1, spawned := b.spawned + 1 }
    else
      b
  | .leave                  => { b with callers := b.callers - 1 }
  | .acquire                =>
    if b.op.isNone ∧ 0 < b.waiting then { b with op := some .read, waiting := b.waiting - 1 } else b
  | .begin i | .checked i _ _ _ | .finish i | .wake i | .exit i => b.withLoop root i a
  | a                       => b.op.elim b (b.opStep root · a)

-- A board as it is found at the start, where one that is enabled is resumed.
def boot (row : Option BoardRow) : Board Body where
  row
  requests := if row.any (·.enabled) then 1 else 0

end Board

-- Where a call that stops everything waits: before it lists the boards, for the lock of one of
-- those that are left, and for the loops of one.
inductive StopCall
  | listing
  | waiting (todo : List String)
  | draining (id : String) (todo : List String)
  | returned
  deriving DecidableEq

structure Supervisor (Body : Type) where
  root   : Bool
  boards : String → Board Body
  known  : List String
  calls  : List StopCall

namespace Supervisor

inductive Action (Body : Type)
  | board (id : String) (a : BoardAction Body)
  | enter (id : String)
  | cancelRoot
  | stopAll
  | list (call : ℕ)
  | take (call : ℕ) (id : String)
  | release (call : ℕ)
  | finish (call : ℕ)

variable {Body : Type} (lib : ConfigLib) (s : Supervisor Body)

def setBoard (id : String) (b : Board Body) : Supervisor Body :=
  { s with boards := Function.update s.boards id b }

def setCall (call : ℕ) (c : StopCall) : Supervisor Body :=
  { s with calls := s.calls.set call c }

-- A reconcile gives the board a slot, if it has none.
def enter (id : String) : Supervisor Body :=
  let b := s.boards id
  if 0 < b.spawned then
    { s.setBoard id { b with spawned := b.spawned - 1, waiting := b.waiting + 1 } with
      known := if id ∈ s.known then s.known else s.known ++ [id] }
  else
    s

def callStep (call : ℕ) : StopCall → Action Body → Supervisor Body
  | .listing, .list _         => s.setCall call (.waiting s.known)
  | .waiting todo, .take _ id =>
    if id ∈ todo ∧ (s.boards id).op.isNone then
      (s.setBoard id ((s.boards id).take (.drain call))).setCall call (.draining id (todo.erase id))
    else
      s
  | .draining id todo, .release _ =>
    match (s.boards id).op with
    | some (.drain _ []) =>
      (s.setBoard id { s.boards id with op := none, view := none }).setCall call (.waiting todo)
    | _                  => s
  | .waiting [], .finish _    => s.setCall call .returned
  | _, _                      => s

def step (a : Action Body) : Supervisor Body :=
  match a with
  | .board id a => s.setBoard id ((s.boards id).step lib s.root a)
  | .enter id   => s.enter id
  | .cancelRoot => { s with root := true }
  | .stopAll    => { s with root := true, calls := s.calls ++ [.listing] }
  | .list call | .take call _ | .release call | .finish call =>
    s.calls[call]?.elim s (s.callStep call · a)

def boot (rows : String → Option BoardRow) : Supervisor Body where
  root     := false
  boards id := .boot (rows id)
  known    := []
  calls    := []

def run (rows : String → Option BoardRow) (actions : List (Action Body)) : Supervisor Body :=
  Trace.run (step lib) (boot rows) actions

end Supervisor

end Monitor
