import Handicap.Engine.Curve

open Store

-- The closed-loop driver: a loop that spawns the VUs second by second, and the VUs. The events are
-- the turns of the loop and the steps that the VUs take between two accesses to what is shared, in
-- any order. All times are in nanoseconds since the start of the run.
namespace Engine

structure ClosedPlan where
  vus      : U32
  rampUp   : U32
  duration : ℕ
  vuOffset : U32
  thinks   : Bool

def ClosedPlan.perTick (plan : ClosedPlan) : ℕ :=
  if plan.rampUp.val = 0 ∨ plan.vus.val = 0 then plan.vus.val
  else max ((plan.vus.val + plan.rampUp.val - 1) / plan.rampUp.val) 1

inductive ClosedPc
  | unspawned
  | building
  | clock
  | token
  | iterating
  | pacing
  | exited (exit : VuExit)
  deriving DecidableEq

structure ClosedVu where
  pc     : ClosedPc
  iterId : ℕ

structure Closed where
  spawning     : Bool
  spawned      : ℕ
  nextSpawn    : ℕ
  runCancelled : Bool
  vus          : ℕ → ClosedVu
  failed       : ℕ
  -- The iterations that have been started, by the indexes of their VUs.
  started      : List (ℕ × ℕ)

inductive ClosedEvent
  | turn (now : ℕ)
  | cancel
  | built (index : ℕ) (ok : Bool)
  -- A VU does what comes next, at the given time.
  | vu (index now : ℕ)
  | iterated (index : ℕ) (result : IterationEnd)
  | paced (index : ℕ) (outcome : PaceOutcome)

namespace Closed

def new : Closed where
  spawning     := true
  spawned      := 0
  nextSpawn    := 0
  runCancelled := false
  vus          := fun _ => ⟨.unspawned, 0⟩
  failed       := 0
  started      := []

variable (plan : ClosedPlan) (s : Closed)

def spawn (count : ℕ) : Closed :=
  { s with
    spawned   := s.spawned + count
    nextSpawn := s.nextSpawn + 1000000000
    vus       := fun i =>
      if s.spawned ≤ i ∧ i < s.spawned + count then { s.vus i with pc := .building } else s.vus i }

def turn (now : ℕ) : Closed :=
  if s.runCancelled ∨ plan.vus.val ≤ s.spawned then { s with spawning := false }
  else if now < s.nextSpawn then s
  else s.spawn (min plan.perTick (plan.vus.val - s.spawned))

def goto (index : ℕ) (pc : ClosedPc) : Closed :=
  { s with vus := Function.update s.vus index { s.vus index with pc } }

def exit (index : ℕ) (exit : VuExit) : Closed :=
  { s.goto index (.exited exit) with failed := if exit = .ok then s.failed else s.failed + 1 }

def startIteration (index : ℕ) : Closed :=
  { s.goto index .iterating with started := s.started ++ [(index, (s.vus index).iterId)] }

-- The id of the next iteration is advanced at the end of the loop.
def again (index : ℕ) : Closed :=
  { s with
    vus := Function.update s.vus index ⟨.clock, Word.add 32 (s.vus index).iterId 1⟩ }

def vuStep (index now : ℕ) : Closed :=
  match (s.vus index).pc with
  | .clock =>
    if plan.duration ≤ now then s.exit index .ok else s.goto index .token
  | .token =>
    if s.runCancelled then s.exit index .aborted else s.startIteration index
  | _      => s

def iterated (index : ℕ) : IterationEnd → Closed
  | .exhausted             => s.exit index .ok
  | .error                 => s.exit index .failed
  | .flow .deadlineReached => s.exit index .ok
  | .flow .aborted         => s.exit index .aborted
  | .flow .continue        => if plan.thinks then s.goto index .pacing else s.again index

def paced (index : ℕ) : PaceOutcome → Closed
  | .cancelled => s.exit index .aborted
  | _          => s.again index

def step (s : Closed) : ClosedEvent → Closed
  | .turn now              => if s.spawning then s.turn plan now else s
  | .cancel                => { s with runCancelled := true }
  | .built index ok        =>
    if (s.vus index).pc = .building then
      if ok then s.goto index .clock else s.exit index .failed
    else
      s
  | .vu index now          => s.vuStep plan index now
  | .iterated index result =>
    if (s.vus index).pc = .iterating then s.iterated plan index result else s
  | .paced index outcome   =>
    if (s.vus index).pc = .pacing then s.paced index outcome else s

def run (events : List ClosedEvent) : Closed :=
  Trace.run (step plan) new events

-- The ids of the iterations that have been started.
def ids : List (ℕ × ℕ) :=
  s.started.map fun (index, iterId) => (Word.saturatingAdd 32 plan.vuOffset.val index, iterId)

end Closed

end Engine
