import Handicap.Engine.Dataset
import Handicap.Engine.Runner

open Store

-- A VU of the closed-loop driver and a VU of the VU-curve driver, each on its own. What they read
-- and do besides their own control flow is up to their surroundings.
namespace Engine

inductive Wake
  | desired
  | closed
  | cancelled
  | deadline
  deriving DecidableEq

-- The token of the run, and its children, which are those of the activations.
inductive VuToken
  | run
  | activation (n : ℕ)

-- The surroundings have a state, which holds the clock, the tokens, the counters of the datasets
-- and all that there is behind the requests. The flow variables of an iteration include the state
-- of their generators.
structure VuEnv (W V : Type*) where
  datasets     : List DataSet
  genRange     : ℕ → ℕ → ℕ
  thinks       : Bool
  expired      : W → Bool
  cancelled    : W → Bool
  retired      : ℕ → W → Bool
  desired      : W → ℕ
  build        : W → Bool × W
  park         : W → Wake × W
  seed         : W → V × W
  bind         : StringMap → V → V
  counter      : W → ℕ → ℕ
  setCounter   : ℕ → ℕ → W → W
  executeSteps : VuToken → U32 → U32 → V → W → Except EngineError StepFlow × W
  pace         : VuToken → W → PaceOutcome × W

inductive VuCall
  | draw (binding : ℕ) (row : Option ℕ)
  | executeSteps (vuId iterId : U32)
  | pace
  deriving DecidableEq

-- What a VU does in some turns of its loop, and how it ends, if it does.
structure VuRun where
  calls : List VuCall
  exit  : Option VuExit
  deriving DecidableEq

def VuRun.after (calls : List VuCall) (r : VuRun) : VuRun :=
  { r with calls := calls ++ r.calls }

namespace VuEnv

variable {W V : Type*} (env : VuEnv W V)

def isCancelled (w : W) : VuToken → Bool
  | .run          => env.cancelled w
  | .activation n => env.cancelled w || env.retired n w

-- A row of every dataset is bound, in order. The first one without a row ends the VU.
def bindRows (vuId iterId : U32) :
    List (DataSet × ℕ) → V → W → List VuCall × Option V × W
  | [], v, w => ([], some v, w)
  | (ds, i) :: datasets, v, w =>
    let (row, counter) := ds.selectIndex env.genRange vuId iterId (env.counter w i)
    let w := env.setCounter i counter w
    match row with
    | none     => ([.draw i none], none, w)
    | some idx =>
      let (calls, r) := bindRows vuId iterId datasets (env.bind (ds.rows.getD idx ∅) v) w
      (.draw i (some idx) :: calls, r)

def iteration (token : VuToken) (vuId iterId : U32) (w : W) : List VuCall × IterationEnd × W :=
  let (v, w) := env.seed w
  match env.bindRows vuId iterId env.datasets.zipIdx v w with
  | (draws, none, w)   => (draws, .exhausted, w)
  | (draws, some v, w) =>
    let calls := draws ++ [.executeSteps vuId iterId]
    match env.executeSteps token vuId iterId v w with
    | (.error _, w) => (calls, .error, w)
    | (.ok flow, w) => (calls, .flow flow, w)

-- One turn of the loop, with what comes after it.
def vuTurn (vuId : U32) (next : U32 → W → VuRun) (iterId : U32) (w : W) : VuRun :=
  if env.expired w then ⟨[], some .ok⟩
  else if env.cancelled w then ⟨[], some .aborted⟩
  else
    match env.iteration .run vuId iterId w with
    | (calls, .exhausted, _)             => ⟨calls, some .ok⟩
    | (calls, .error, _)                 => ⟨calls, some .failed⟩
    | (calls, .flow .deadlineReached, _) => ⟨calls, some .ok⟩
    | (calls, .flow .aborted, _)         => ⟨calls, some .aborted⟩
    | (calls, .flow .continue, w)        =>
      if env.thinks then
        match env.pace .run w with
        | (.cancelled, _) => ⟨calls ++ [.pace], some .aborted⟩
        | (_, w)          => (next (iterId + 1) w).after (calls ++ [.pace])
      else
        (next (iterId + 1) w).after calls

def vuLoop (vuId : U32) : ℕ → U32 → W → VuRun
  | 0         => fun _ _ => ⟨[], none⟩
  | turns + 1 => env.vuTurn vuId (vuLoop vuId turns)

def runVu (vuId : U32) (turns : ℕ) (w : W) : VuRun :=
  match env.build w with
  | (false, _) => ⟨[], some .failed⟩
  | (true, w)  => env.vuLoop vuId turns 0 w

-- A parked VU waits until it is desired, unless it exits.
def parkGate (index : ℕ) (w : W) : VuExit ⊕ W :=
  if env.cancelled w then .inl .aborted
  else if env.expired w then .inl .ok
  else if env.desired w ≤ index then
    match env.park w with
    | (.desired, w)   => .inr w
    | (.closed, _)    => .inl .ok
    | (.cancelled, _) => .inl .aborted
    | (.deadline, _)  => .inl .ok
  else
    .inr w

-- The VU parks after its activation, unless its run is cancelled.
def deactivate (w : W) (parked : VuRun) : VuRun :=
  if env.cancelled w then ⟨[], some .aborted⟩ else parked

def curveTurn (index : ℕ) (vuId : U32) (next : Bool → ℕ → U32 → W → VuRun) (parked : Bool)
    (activations : ℕ) (iterId : U32) (w : W) : VuRun :=
  let n := if parked then activations + 1 else activations
  match if parked then env.parkGate index w else .inr w with
  | .inl exit => ⟨[], some exit⟩
  | .inr w    =>
    if env.expired w then ⟨[], some .ok⟩
    else if env.isCancelled w (.activation n) then env.deactivate w (next true n iterId w)
    else if env.desired w ≤ index then env.deactivate w (next true n iterId w)
    else
      match env.iteration (.activation n) vuId iterId w with
      | (calls, .exhausted, _)             => ⟨calls, some .ok⟩
      | (calls, .error, _)                 => ⟨calls, some .failed⟩
      | (calls, .flow .deadlineReached, _) => ⟨calls, some .ok⟩
      | (calls, .flow .aborted, w)         =>
        (env.deactivate w (next true n iterId w)).after calls
      | (calls, .flow .continue, w)        =>
        if env.desired w ≤ index then
          (env.deactivate w (next true n (iterId + 1) w)).after calls
        else if env.thinks then
          match env.pace (.activation n) w with
          | (.cancelled, w)       =>
            (env.deactivate w (next true n (iterId + 1) w)).after (calls ++ [.pace])
          | (.deadlineReached, _) => ⟨calls ++ [.pace], some .ok⟩
          | (.slept, w)           => (next false n (iterId + 1) w).after (calls ++ [.pace])
        else
          (next false n (iterId + 1) w).after calls

def curveLoop (index : ℕ) (vuId : U32) : ℕ → Bool → ℕ → U32 → W → VuRun
  | 0         => fun _ _ _ _ => ⟨[], none⟩
  | turns + 1 => env.curveTurn index vuId (curveLoop index vuId turns)

def runVuCurve (index : ℕ) (vuId : U32) (turns : ℕ) (w : W) : VuRun :=
  match env.build w with
  | (false, _) => ⟨[], some .failed⟩
  | (true, w)  => env.curveLoop index vuId turns true 0 0 w

end VuEnv

-- The line of control of a VU, how many iterations it has begun, and the counters of the datasets.
structure VuState where
  strand     : Strand
  iterations : ℕ
  counters   : ℕ → ℕ

namespace VuState

variable (w : VuState)

def clock : ℚ :=
  w.strand.clock

def after (time : ℚ≥0) : VuState :=
  { w with strand := { w.strand with clock := w.clock + time } }

end VuState

-- What a VU is run with, and what comes from outside: whether its client can be built, what each of
-- its iterations meets, the rows that other VUs have drawn before it, what becomes of a VU that is
-- parked, and the times at which the supervisor goes through the VUs, activation by activation.
structure Surroundings where
  scenario    : Scenario
  datasets    : List DataSet
  genRange    : ℕ → ℕ → ℕ
  lib         : Libraries
  env         : Table String String
  client      : VuClient
  built       : Bool × ℚ≥0
  thinkTime   : Option ThinkTime
  outside     : ℕ → Outside
  drawn       : ℕ → ℕ → ℕ
  deadline    : ℚ
  cancelledAt : Option ℚ
  desired     : ℚ → ℕ
  sweeps      : ℕ → List ℚ
  parked      : ℚ → Wake × ℚ≥0

namespace Surroundings

variable (o : Surroundings) (index : ℕ)

-- The supervisor cancels the tokens of those that are not desired.
def retiredAt (n : ℕ) : Option ℚ :=
  (o.sweeps n).find? (o.desired · ≤ index)

-- A child is cancelled with its parent.
def cancelledAtOf : VuToken → Option ℚ
  | .run          => o.cancelledAt
  | .activation n => o.cancelledAt.merge min (o.retiredAt index n)

def iteration (token : VuToken) (vuId iterId : U32) (w : VuState) : Iteration where
  lib         := o.lib
  outside     := o.outside w.iterations
  client      := o.client
  env         := o.env
  vuId        := vuId.val
  iterId      := iterId.val
  deadline    := o.deadline
  cancelledAt := o.cancelledAtOf index token

-- The surroundings of a VU whose iterations are those of the interpreter.
def vuEnv : VuEnv VuState Strand where
  datasets     := o.datasets
  genRange     := o.genRange
  thinks       := o.thinkTime.isSome
  expired w    := o.deadline ≤ w.clock
  cancelled w  := o.cancelledAt.any (· ≤ w.clock)
  retired n w  := (o.retiredAt index n).any (· ≤ w.clock)
  desired w    := o.desired w.clock
  build w      := (o.built.1, w.after o.built.2)
  park w       := ((o.parked w.clock).1, w.after (o.parked w.clock).2)
  seed w       :=
    let n := w.iterations + 1
    let counters i := w.counters i + o.drawn n i
    let w := { w with iterations := n, counters }
    ((o.iteration index .run 0 0 w).start o.scenario [] w.clock, w)
  bind row s   := s.merge (Table.toList row)
  counter w i  := w.counters i
  setCounter i counter w :=
    { w with counters := Function.update w.counters i counter }
  executeSteps token vuId iterId s w :=
    let r := (o.iteration index token vuId iterId w).executeSteps o.scenario.steps none
      o.scenario.defaultThinkTime s
    (r.flow, { w with strand := r.strand })
  pace token w :=
    match o.thinkTime with
    | none    => (.slept, w)
    | some tt =>
      let it := o.iteration index token 0 0 w
      let ms := sampleThinkTime tt (it.outside.draw w.strand.address)
      let (outcome, s) := it.pace (ms / 1000) w.strand.step
      (outcome, { w with strand := s })

end Surroundings

end Engine
