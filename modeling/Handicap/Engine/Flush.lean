import Handicap.Engine.Aggregator
import Handicap.Library.Trace

-- How the metrics leave a worker: a flusher sends what is complete from time to time, and the
-- driver sends the rest when all VUs have ended, before it aborts the flusher. Both send into one
-- bounded channel. The events are what the tasks do between two of their await points, in any
-- order.
namespace Engine

inductive Driver
  | closedLoop
  | openLoop
  | vuCurve
  deriving DecidableEq

def MetricFlush.hasData (f : MetricFlush) : Bool :=
  !f.windows.isEmpty || !f.loopStats.isEmpty || !f.branchStats.isEmpty || !f.groupStats.isEmpty ||
    !f.phaseStats.isEmpty || !f.activeVuSamples.isEmpty || !f.errorKindStats.isEmpty

namespace Aggregator

-- All drains, one after another, with the given ones for the windows and the gauge.
def drainBatch (driver : Driver) (dropped : ℕ)
    (drainWindows : Aggregator → List StepWindow × Aggregator)
    (drainGauge : Aggregator → List ActiveVuSample × Aggregator) (a : Aggregator) :
    MetricFlush × Aggregator :=
  let (windows, a)         := drainWindows a
  let (loopStats, a)       := a.drainLoopDeltas
  let (branchStats, a)     := a.drainBranchDeltas
  let (groupStats, a)      := a.drainGroupDeltas
  let (phaseStats, a)      := a.drainPhaseDeltas
  let (activeVuSamples, a) := if driver = .vuCurve then drainGauge a else ([], a)
  let (errorKindStats, a)  := a.drainErrorKindDeltas
  ({ windows, loopStats, branchStats, groupStats, dropped, phaseStats, activeVuSamples,
     errorKindStats }, a)

-- What the flusher drains, at the given second.
def drainTick (driver : Driver) (now : ℤ) : Aggregator → MetricFlush × Aggregator :=
  drainBatch driver 0 (drainCompleted · now) (drainActiveVuCompleted · now)

-- What the driver drains when the run is over.
def drainFinal (driver : Driver) (dropped : ℕ) : Aggregator → MetricFlush × Aggregator :=
  drainBatch driver dropped drainAll drainActiveVu

end Aggregator

inductive Sender
  | flusher
  | main
  deriving DecidableEq

-- A bounded channel. A sender that finds no permit waits for one, and is granted it in turn. It
-- sends when it is polled the next time.
structure FlushChannel where
  permits : ℕ
  waiting : List Sender
  granted : List Sender
  queue   : List MetricFlush
  deriving DecidableEq

namespace FlushChannel

-- Whether the message has been sent at once.
def send (c : FlushChannel) (sender : Sender) (f : MetricFlush) : Bool × FlushChannel :=
  if 0 < c.permits then
    (true, { c with permits := c.permits - 1, queue := c.queue ++ [f] })
  else
    (false, { c with waiting := c.waiting ++ [sender] })

-- A permit goes to the first sender that waits for one.
def release (c : FlushChannel) : FlushChannel :=
  match c.waiting with
  | []                => { c with permits := c.permits + 1 }
  | sender :: waiting => { c with waiting, granted := c.granted ++ [sender] }

def poll (c : FlushChannel) (sender : Sender) (f : MetricFlush) : Bool × FlushChannel :=
  if sender ∈ c.granted then
    (true, { c with granted := c.granted.erase sender, queue := c.queue ++ [f] })
  else
    (false, c)

-- The sender is dropped while it is sending.
def forget (c : FlushChannel) (sender : Sender) : FlushChannel :=
  if sender ∈ c.granted then
    { c with granted := c.granted.erase sender }.release
  else
    { c with waiting := c.waiting.erase sender }

def recv (c : FlushChannel) : Option (MetricFlush × FlushChannel) :=
  match c.queue with
  | []         => none
  | f :: queue => some (f, { c with queue }.release)

end FlushChannel

inductive Flusher
  | notStarted
  | idle
  | sending (f : MetricFlush)
  | stopped
  deriving DecidableEq

inductive Outcome
  | ok
  | aborted
  | allVusFailed
  deriving DecidableEq

inductive MainTask
  | running
  | joined
  | sending (f : MetricFlush)
  | sent
  | aborting
  | returned (outcome : Outcome)
  deriving DecidableEq

structure Flushing where
  agg       : Aggregator
  channel   : FlushChannel
  flusher   : Flusher
  main      : MainTask
  dropped   : ℕ
  cancelled : Bool
  spawned   : ℕ
  failed    : ℕ
  recorded  : List Record
  delivered : List MetricFlush

inductive FlushEvent
  | record (r : Record)
  | drop
  | cancel
  | spawnVu
  | failVu
  | startFlusher
  | tick (now : ℤ)
  | pollFlusher
  | join
  | drainFinal
  | pollMain
  | abortFlusher
  | flusherStopped
  | receive
  deriving DecidableEq

-- Whether an event can happen in the given second. A request is recorded in the second in which the
-- aggregator is locked, and a tick has read the clock before.
def FlushEvent.happensAt (now : ℤ) : FlushEvent → Bool
  | record (.request ts _ _ _ _ _) => ts = now
  | tick upToSecond                => upToSecond ≤ now
  | _                              => true

namespace Flushing

-- The closed-loop driver starts its flusher after its VUs, and the others start it before them.
def new (driver : Driver) (loopBreakdownCap capacity : ℕ) : Flushing where
  agg       := .new loopBreakdownCap
  channel   := ⟨capacity, [], [], []⟩
  flusher   := if driver = .closedLoop then .notStarted else .idle
  main      := .running
  dropped   := 0
  cancelled := false
  spawned   := 0
  failed    := 0
  recorded  := []
  delivered := []

variable (driver : Driver) (s : Flushing)

def tick (now : ℤ) : Flushing :=
  let (f, agg) := s.agg.drainTick driver now
  if f.hasData then
    let (sent, channel) := s.channel.send .flusher f
    { s with agg, channel, flusher := if sent then .idle else .sending f }
  else
    { s with agg }

-- The final batch of the open-loop driver is sent in any case, as it carries the drops.
def drainFinal : Flushing :=
  let (f, agg) := s.agg.drainFinal driver (if driver = .openLoop then s.dropped else 0)
  if driver = .openLoop ∨ f.hasData then
    let (sent, channel) := s.channel.send .main f
    { s with agg, channel, main := if sent then .sent else .sending f }
  else
    { s with agg, main := .sent }

def outcome : Outcome :=
  if s.cancelled then .aborted
  else if driver ≠ .openLoop ∧ 0 < s.spawned ∧ s.spawned ≤ s.failed then .allVusFailed
  else .ok

def step (s : Flushing) : FlushEvent → Flushing
  | .record r       =>
    if s.main = .running then
      { s with agg := s.agg.apply r, recorded := s.recorded ++ [r] }
    else
      s
  | .drop           =>
    if s.main = .running ∧ driver = .openLoop then { s with dropped := s.dropped + 1 } else s
  | .cancel         => { s with cancelled := true }
  | .spawnVu        => if s.main = .running then { s with spawned := s.spawned + 1 } else s
  | .failVu         =>
    if s.main = .running ∧ s.failed < s.spawned then { s with failed := s.failed + 1 } else s
  | .startFlusher   => if s.flusher = .notStarted then { s with flusher := .idle } else s
  | .tick now       => if s.flusher = .idle then s.tick driver now else s
  | .pollFlusher    =>
    match s.flusher with
    | .sending f =>
      let (sent, channel) := s.channel.poll .flusher f
      { s with channel, flusher := if sent then .idle else .sending f }
    | _          => s
  | .join           =>
    if s.main = .running ∧ s.flusher ≠ .notStarted then { s with main := .joined } else s
  | .drainFinal     => if s.main = .joined then s.drainFinal driver else s
  | .pollMain       =>
    match s.main with
    | .sending f =>
      let (sent, channel) := s.channel.poll .main f
      { s with channel, main := if sent then .sent else .sending f }
    | _          => s
  | .abortFlusher   => if s.main = .sent then { s with main := .aborting } else s
  -- The flusher is stopped at the await point at which it is.
  | .flusherStopped =>
    if s.main = .aborting then
      { s with
        channel := s.channel.forget .flusher
        flusher := .stopped
        main    := .returned (s.outcome driver) }
    else
      s
  | .receive        =>
    match s.channel.recv with
    | none              => s
    | some (f, channel) => { s with channel, delivered := s.delivered ++ [f] }

def run (loopBreakdownCap capacity : ℕ) (events : List FlushEvent) : Flushing :=
  Trace.run (step driver) (new driver loopBreakdownCap capacity) events

end Flushing

end Engine
