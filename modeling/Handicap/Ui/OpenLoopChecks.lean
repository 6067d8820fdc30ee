import Handicap.Engine.Scenario
import Handicap.Engine.Condition
import Mathlib.Data.Rat.Floor

open Engine (Scenario Step Condition)
open Store (F64 ThinkTime)

-- The warnings about the load of an open-loop run. Drafts are given by their numbers.
namespace Ui

inductive OpenLoopWarning
  | idleWorkers (workers peak idle : ℚ)
  | inertSlots (maxInFlight threshold : ℚ)
  deriving DecidableEq

inductive RateMode
  | fixed
  | curve
  deriving DecidableEq

structure OpenLoopInput where
  isOpen             : Bool
  rateMode           : RateMode
  targetRps          : F64
  maxInFlight        : F64
  stageTargets       : List F64
  workerCount        : F64
  httpTimeoutSeconds : Option ℚ
  scenario           : Option Scenario
  poolMode           : Bool

section

variable (httpTimeout : ℚ)

mutual

-- The longest time that a step takes, in seconds. One branch of an if step is taken, and those of a
-- parallel step are taken at the same time, without the default think time.
def stepTimeBound : Step → Option ThinkTime → ℚ
  | .http step, defaultThink                      =>
    let stepTimeout := (step.timeoutSeconds.map fun s : ℕ => (s : ℚ)).getD httpTimeout
    let thinkMs := ((step.thinkTime.or defaultThink).map fun t => (t.maxMs.val : ℚ)).getD 0
    stepTimeout + thinkMs / 1000
  | .loop _ _ repeats body, defaultThink          =>
    repeats * iterationTimeUpperBoundSeconds body defaultThink
  | .parallel _ _ branches, _                     => branchTimeBound branches
  | .ifStep _ _ _ thenSteps elifs elseSteps, defaultThink =>
    let thenBound := iterationTimeUpperBoundSeconds thenSteps defaultThink
    max (elifTimeBound elifs defaultThink thenBound)
      (iterationTimeUpperBoundSeconds elseSteps defaultThink)

def iterationTimeUpperBoundSeconds : List Step → Option ThinkTime → ℚ
  | [], _                     => 0
  | step :: steps, defaultThink =>
    stepTimeBound step defaultThink + iterationTimeUpperBoundSeconds steps defaultThink

def elifTimeBound : List (Condition × List Step) → Option ThinkTime → ℚ → ℚ
  | [], _, bound                             => bound
  | (_, steps) :: elifs, defaultThink, bound =>
    elifTimeBound elifs defaultThink (max bound (iterationTimeUpperBoundSeconds steps defaultThink))

def branchTimeBound : List (String × List Step) → ℚ
  | []                     => 0
  | (_, steps) :: branches =>
    max (iterationTimeUpperBoundSeconds steps none) (branchTimeBound branches)

end

end

def targetRpsValid : F64 → Option ℚ
  | .finite q => if q.isInt ∧ 1 ≤ q ∧ q ≤ 1000000 then some q else none
  | _         => none

def higherTarget (peak : Option ℚ) (target : F64) : Option ℚ :=
  match targetRpsValid target, peak with
  | none, _           => peak
  | some n, none      => some n
  | some n, some peak => if peak < n then some n else some peak

-- The highest of the targets that are valid.
def peakStageTarget (stageTargets : List F64) : Option ℚ :=
  stageTargets.foldl higherTarget none

def idleWarnings (input : OpenLoopInput) : List OpenLoopWarning :=
  match input.rateMode, peakStageTarget input.stageTargets, input.workerCount with
  | .curve, some peak, .finite workers =>
    if workers.isInt ∧ peak < workers then [.idleWorkers workers peak (workers - peak)] else []
  | _, _, _                            => []

def inertWarnings (input : OpenLoopInput) : List OpenLoopWarning :=
  let rate :=
    match input.rateMode with
    | .curve => peakStageTarget input.stageTargets
    | .fixed => targetRpsValid input.targetRps
  match input.scenario, input.httpTimeoutSeconds, rate, input.maxInFlight with
  | some scenario, some httpTimeout, some rate, .finite maxInFlight =>
    let bound :=
      iterationTimeUpperBoundSeconds httpTimeout scenario.steps scenario.defaultThinkTime
    if Engine.atMost input.workerCount (.finite 1) ∧ 0 < rate ∧ 0 < bound ∧ 1 ≤ maxInFlight ∧
        ⌈rate * bound⌉ ≤ maxInFlight then
      [.inertSlots maxInFlight ⌈rate * bound⌉]
    else []
  | _, _, _, _ => []

def openLoopWarnings (input : OpenLoopInput) : List OpenLoopWarning :=
  if !input.isOpen || input.poolMode then [] else idleWarnings input ++ inertWarnings input

end Ui
