import Handicap.Library.Trace
import Handicap.Library.Word
import Handicap.Store.Profile
import Mathlib.Logic.Function.Basic

open Store

-- The VU-curve driver: a supervisor, which follows a curve of desired VUs with its ticks, and the
-- VUs, which park while they are not desired. The events are the steps that these tasks take
-- between two accesses to what they share, in any order. All times are nanoseconds since the start.
namespace Engine

-- What happens to the VUs that are active although they are not desired any more.
inductive CurveMode
  -- They are retired at once.
  | immediate
  -- They end their iterations, and are retired after the given time.
  | graceful (cap : Option ℕ)
  deriving DecidableEq

-- The rate of the curve, rounded, is given for every time.
structure CurvePlan where
  maxVus   : U32
  rate     : ℕ → ℤ
  duration : ℕ
  vuOffset : U32
  mode     : CurveMode
  thinks   : Bool

def CurvePlan.desiredAt (plan : CurvePlan) (now : ℕ) : ℕ :=
  (max 0 (min (plan.rate now) plan.maxVus.val)).toNat

inductive VuExit
  | ok
  | aborted
  | failed
  deriving DecidableEq

-- What a VU does next.
inductive VuPc
  | unspawned
  | building
  -- Parked: the run may be cancelled or over, or the VU may be desired.
  | parkHead
  | parkClock
  | parkGate
  | waiting
  | activating
  -- Active: in between its iterations.
  | activeClock
  | activeToken
  | activeGate
  | iterating
  | recheck
  | pacing
  -- The slot is cleared, and the VU parks or exits.
  | deactivating
  | deactivated
  | leaving (exit : VuExit)
  | exited (exit : VuExit)
  deriving DecidableEq

structure Vu where
  pc     : VuPc
  act    : Option ℕ
  iterId : ℕ

-- How an iteration ends.
inductive StepFlow
  | continue
  | deadlineReached
  | aborted
  deriving DecidableEq

inductive IterationEnd
  -- A unique binding is exhausted.
  | exhausted
  | flow (flow : StepFlow)
  | error
  deriving DecidableEq

inductive PaceOutcome
  | slept
  | cancelled
  | deadlineReached
  deriving DecidableEq

-- The supervisor sends the desired number first and looks at the active VUs then.
inductive Supervisor
  | head
  | ticked (now desired : ℕ)
  | done
  deriving DecidableEq

-- What the supervisor has seen at a tick, and which tokens of which VUs it has cancelled.
structure TickRecord where
  now       : ℕ
  desired   : ℕ
  slab      : ℕ → Option ℕ
  cancelled : List (ℕ × ℕ)

-- Tokens are numbered. A token counts as cancelled if it is, or if the run is.
structure Curve where
  desired      : ℕ
  slab         : ℕ → Option ℕ
  tokens       : ℕ
  cancelled    : List ℕ
  runCancelled : Bool
  supervisor   : Supervisor
  spawned      : ℕ
  retireSince  : ℕ → Option ℕ
  vus          : ℕ → Vu
  failed       : ℕ
  ticks        : List TickRecord
  -- The iterations that have been started, by the indexes of their VUs.
  started      : List (ℕ × ℕ)

inductive CurveEvent
  | tick (now : ℕ)
  | retire
  | cancel
  -- A VU does what comes next, at the given time.
  | vu (index now : ℕ)
  | built (index : ℕ) (ok : Bool)
  | woken (index : ℕ)
  | wokenByCancel (index : ℕ)
  | wokenByDeadline (index now : ℕ)
  | iterated (index : ℕ) (result : IterationEnd)
  | paced (index : ℕ) (outcome : PaceOutcome)

namespace Curve

def new : Curve where
  desired      := 0
  slab         := fun _ => none
  tokens       := 0
  cancelled    := []
  runCancelled := false
  supervisor   := .head
  spawned      := 0
  retireSince  := fun _ => none
  vus          := fun _ => ⟨.unspawned, none, 0⟩
  failed       := 0
  ticks        := []
  started      := []

variable (plan : CurvePlan) (s : Curve)

def isCancelled (token : ℕ) : Bool :=
  s.runCancelled || token ∈ s.cancelled

def clearSlot (index : ℕ) : Curve :=
  { s with slab := Function.update s.slab index none }

-- The tokens that are cancelled in immediate mode.
def undesiredTokens (desired : ℕ) : List (ℕ × ℕ) :=
  (List.range plan.maxVus.val).filterMap fun i =>
    if desired ≤ i then (s.slab i).map (i, ·) else none

-- The tokens whose VUs have not been desired for so long, while they were active.
def expiredTokens (desired cap now : ℕ) : List (ℕ × ℕ) :=
  (List.range s.spawned).filterMap fun i =>
    match s.slab i, s.retireSince i with
    | some token, some t => if desired ≤ i ∧ cap ≤ now - t then some (i, token) else none
    | _, _               => none

-- The timers of the VUs, which start when an undesired VU is seen active.
def timers (desired now : ℕ) (i : ℕ) : Option ℕ :=
  if i < desired then none
  else if s.spawned ≤ i then s.retireSince i
  else
    match s.slab i, s.retireSince i with
    | none, _          => none
    | some _, none     => some now
    | some _, some t   => some t

def cancelTokens (now desired : ℕ) (tokens : List (ℕ × ℕ)) : Curve :=
  { s with
    cancelled := s.cancelled ++ tokens.map Prod.snd
    ticks     := s.ticks ++ [⟨now, desired, s.slab, tokens⟩] }

def retireExpired (desired cap now : ℕ) : Curve :=
  { s.cancelTokens now desired (s.expiredTokens desired cap now) with
    retireSince := s.timers desired now }

def retire (now desired : ℕ) : Curve :=
  match plan.mode with
  | .immediate           => s.cancelTokens now desired (s.undesiredTokens plan desired)
  | .graceful (some cap) => s.retireExpired desired cap now
  | .graceful none       => s.cancelTokens now desired []

-- The VUs that have never been desired before are spawned.
def spawn (desired : ℕ) : Curve :=
  { s with
    spawned := max s.spawned desired
    vus     := fun i =>
      if s.spawned ≤ i ∧ i < desired then { s.vus i with pc := .building } else s.vus i }

def broadcast (now desired : ℕ) : Curve :=
  { s.spawn desired with desired, supervisor := .ticked now desired }

def tick (now : ℕ) : Curve :=
  if s.runCancelled ∨ plan.duration ≤ now then
    { s with supervisor := .done }
  else
    s.broadcast now (plan.desiredAt now)

def goto (index : ℕ) (pc : VuPc) : Curve :=
  { s with vus := Function.update s.vus index { s.vus index with pc } }

def exit (index : ℕ) (exit : VuExit) : Curve :=
  { s.goto index (.exited exit) with failed := if exit = .ok then s.failed else s.failed + 1 }

-- A new token is registered.
def activate (index : ℕ) : Curve :=
  { s with
    slab   := Function.update s.slab index (some s.tokens)
    tokens := s.tokens + 1
    vus    := Function.update s.vus index
      { s.vus index with pc := .activeClock, act := some s.tokens } }

-- The slot is cleared, and the VU goes on without a token.
def release (index : ℕ) : Curve :=
  { s.clearSlot index with
    vus := Function.update s.vus index { s.vus index with act := none } }

def startIteration (index : ℕ) : Curve :=
  { s.goto index .iterating with started := s.started ++ [(index, (s.vus index).iterId)] }

def vuStep (index now : ℕ) : Curve :=
  match (s.vus index).pc with
  | .parkHead    =>
    if s.runCancelled then s.exit index .aborted else s.goto index .parkClock
  | .parkClock   =>
    if plan.duration ≤ now then s.exit index .ok else s.goto index .parkGate
  | .parkGate    =>
    if s.desired ≤ index then s.goto index .waiting else s.goto index .activating
  | .activating  => s.activate index
  | .activeClock =>
    if plan.duration ≤ now then s.goto index (.leaving .ok) else s.goto index .activeToken
  | .activeToken =>
    if (s.vus index).act.any s.isCancelled then s.goto index .deactivating
    else s.goto index .activeGate
  | .activeGate  =>
    if s.desired ≤ index then s.goto index .deactivating else s.startIteration index
  | .recheck     =>
    if s.desired ≤ index then s.goto index .deactivating
    else if plan.thinks then s.goto index .pacing
    else s.goto index .activeClock
  | .deactivating => (s.release index).goto index .deactivated
  | .deactivated  =>
    if s.runCancelled then s.exit index .aborted else s.goto index .parkHead
  | .leaving exit => (s.release index).exit index exit
  | _             => s

-- The id of the next iteration is advanced only if the iteration has not been cut off.
def iterated (index : ℕ) : IterationEnd → Curve
  | .exhausted             => s.goto index (.leaving .ok)
  | .error                 => s.goto index (.leaving .failed)
  | .flow .deadlineReached => s.goto index (.leaving .ok)
  | .flow .aborted         => s.goto index .deactivating
  | .flow .continue        =>
    { s with
      vus := Function.update s.vus index
        { s.vus index with pc := .recheck, iterId := Word.add 32 (s.vus index).iterId 1 } }

def paced (index : ℕ) : PaceOutcome → Curve
  | .cancelled       => s.goto index .deactivating
  | .deadlineReached => s.goto index (.leaving .ok)
  | .slept           => s.goto index .activeClock

def step (s : Curve) : CurveEvent → Curve
  | .tick now                  => if s.supervisor = .head then s.tick plan now else s
  | .retire                    =>
    match s.supervisor with
    | .ticked now desired => { s.retire plan now desired with supervisor := .head }
    | _                   => s
  | .cancel                    => { s with runCancelled := true }
  | .vu index now              => s.vuStep plan index now
  | .built index ok            =>
    if (s.vus index).pc = .building then
      if ok then s.goto index .parkHead else s.exit index .failed
    else
      s
  | .woken index               =>
    if (s.vus index).pc = .waiting ∧ index < s.desired then s.goto index .activating else s
  | .wokenByCancel index       =>
    if (s.vus index).pc = .waiting ∧ s.runCancelled then s.exit index .aborted else s
  | .wokenByDeadline index now =>
    if (s.vus index).pc = .waiting ∧ plan.duration ≤ now then s.exit index .ok else s
  | .iterated index result     =>
    if (s.vus index).pc = .iterating then s.iterated index result else s
  | .paced index outcome       =>
    if (s.vus index).pc = .pacing then s.paced index outcome else s

def run (events : List CurveEvent) : Curve :=
  Trace.run (step plan) new events

-- The ids of the iterations that have been started.
def ids : List (ℕ × ℕ) :=
  s.started.map fun (index, iterId) => (Word.saturatingAdd 32 plan.vuOffset.val index, iterId)

end Curve

end Engine
