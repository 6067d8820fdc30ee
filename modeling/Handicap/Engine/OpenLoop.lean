import Handicap.Library.Trace
import Handicap.Library.Word
import Handicap.Store.Profile

open Store

-- The open-loop driver, which starts iterations at the times of a schedule. Its events are the
-- turns of the arrival loop and what happens to the arrivals in between, in any order. All times
-- are in nanoseconds since the start of the run.
namespace Engine

structure OpenLoopPlan where
  maxInFlight : Option U32
  targetRps   : Option U32
  duration    : ℕ
  vuOffset    : U32
  -- The curve's own times of its attempts, if there is a curve.
  curve       : Option (ℕ → Option ℕ)

namespace OpenLoopPlan

variable (plan : OpenLoopPlan)

def slotCount : ℕ :=
  max (plan.maxInFlight.getD 1).val 1

def fixedInterval : ℕ :=
  max (1000000000 / max (plan.targetRps.getD 1).val 1) 1

-- Once the curve has no more attempts before the deadline, the next one is put at the deadline.
def curveTime (times : ℕ → Option ℕ) (k : ℕ) : ℕ :=
  match times k with
  | some t => if t < plan.duration then t else plan.duration
  | none   => plan.duration

end OpenLoopPlan

-- A bounded channel of slots.
structure SlotChannel where
  capacity : ℕ
  queue    : List ℕ

namespace SlotChannel

def trySend (c : SlotChannel) (slot : ℕ) : Bool × SlotChannel :=
  if c.queue.length < c.capacity then
    (true, { c with queue := c.queue ++ [slot] })
  else
    (false, c)

def tryRecv (c : SlotChannel) : Option (ℕ × SlotChannel) :=
  match c.queue with
  | []            => none
  | slot :: queue => some (slot, { c with queue })

end SlotChannel

structure Arrival where
  slot   : ℕ
  client : ℕ
  vuId   : ℕ
  iterId : ℕ
  deriving DecidableEq

inductive OpenLoopPhase
  | looping
  | joining
  | finished
  | panicked
  deriving DecidableEq

-- The attempts are logged with the times at which they were due and with what they started. The
-- slots that a guard could not give back are leaked.
structure OpenLoop where
  slots          : SlotChannel
  pool           : List ℕ
  running        : List Arrival
  leaked         : List ℕ
  arrivalCounter : ℕ
  dropped        : ℕ
  tick           : ℕ
  next           : ℕ
  exhausted      : Bool
  cancelled      : Bool
  phase          : OpenLoopPhase
  attempts       : List (ℕ × Option Arrival)

inductive OpenLoopEvent
  -- A turn of the arrival loop.
  | turn (now : ℕ)
  -- An arrival ends: normally, with an error, aborted or by a panic. Its guard is dropped.
  | finish (slot : ℕ)
  -- An arrival finds a unique binding exhausted.
  | exhaust
  | cancel
  -- The loop is left, and there is no arrival to wait for any more.
  | joined

namespace OpenLoop

def new (plan : OpenLoopPlan) : OpenLoop where
  slots          := ⟨plan.slotCount, List.range plan.slotCount⟩
  pool           := List.range plan.slotCount
  running        := []
  leaked         := []
  arrivalCounter := 0
  dropped        := 0
  tick           := 0
  next           := match plan.curve with
    | none       => 0
    | some times => plan.curveTime times 0
  exhausted      := false
  cancelled      := false
  phase          := .looping
  attempts       := []

variable (plan : OpenLoopPlan) (s : OpenLoop)

-- The attempt is consumed, whether it has been fired or dropped.
def advance : OpenLoop :=
  match plan.curve with
  | none       => { s with next := s.next + plan.fixedInterval }
  | some times => { s with tick := s.tick + 1, next := plan.curveTime times (s.tick + 1) }

def attempt : OpenLoop :=
  match s.slots.tryRecv with
  | some (slot, slots) =>
    match s.pool[slot]? with
    | none        => { s with phase := .panicked }
    | some client =>
      let arrival := {
        slot, client
        vuId   := Word.saturatingAdd 32 plan.vuOffset.val slot
        iterId := Word.cast 32 s.arrivalCounter }
      advance plan { s with
        slots
        arrivalCounter := s.arrivalCounter + 1
        running        := s.running ++ [arrival]
        attempts       := s.attempts ++ [(s.next, some arrival)] }
  | none =>
    advance plan { s with
      dropped  := s.dropped + 1
      attempts := s.attempts ++ [(s.next, none)] }

def turn (now : ℕ) : OpenLoop :=
  if s.cancelled ∨ s.exhausted ∨ plan.duration ≤ now then
    { s with phase := .joining }
  else if now < s.next then
    s
  else
    attempt plan s

-- The guard of the arrival gives its slot back, without waiting.
def finish (slot : ℕ) : OpenLoop :=
  match s.running.find? (·.slot = slot) with
  | none   => s
  | some a =>
    let (sent, slots) := s.slots.trySend a.slot
    { s with
      slots
      running := s.running.erase a
      leaked  := if sent then s.leaked else s.leaked ++ [a.slot] }

def step : OpenLoop → OpenLoopEvent → OpenLoop
  | s, .turn now    => if s.phase = .looping then s.turn plan now else s
  | s, .finish slot => s.finish slot
  | s, .exhaust     => if s.running = [] then s else { s with exhausted := true }
  | s, .cancel      => { s with cancelled := true }
  | s, .joined      => if s.phase = .joining ∧ s.running = [] then { s with phase := .finished } else s

def run (events : List OpenLoopEvent) : OpenLoop :=
  Trace.run (step plan) (new plan) events

end OpenLoop

end Engine
