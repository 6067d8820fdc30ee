import Handicap.Engine.Arrivals
import Handicap.Engine.OpenLoop

open Store (Stage U32)

-- The arrival loop of the open-loop driver with its times. Every attempt is made when it is due,
-- and an iteration that ends at that time has given its slot back. All times are in seconds since
-- the start of the run.
namespace Engine

inductive ArrivalRate
  | fixed (targetRps : U32)
  | curve (stages : List Stage)

def ArrivalRate.stages : ArrivalRate → List Stage
  | fixed _      => []
  | curve stages => stages

section

variable {K : Type*} [Field K] [LinearOrder K] (sqrt : K → K)

-- When the first attempts are due. A curve may have no more of them.
def ArrivalRate.dues (n : ℕ) : ArrivalRate → List (Option K)
  | fixed targetRps =>
    let interval : ℕ := OpenLoopPlan.fixedInterval ⟨none, some targetRps, 0, 0, none⟩
    (List.range n).map fun k : ℕ => some (k * (interval / 1000000000))
  | curve stages    =>
    (ArrivalSchedule.new stages).answers sqrt ((List.range n).map fun k : ℕ => k + 1 / (2 : ℕ))

-- The ends of the iterations that are running, and the attempts that have found no slot.
structure ArrivalLoop (K : Type*) where
  running : List K
  dropped : ℕ

namespace ArrivalLoop

variable (slots : ℕ) (deadline : K)

-- An attempt that is due at a time, with the time that its iteration takes.
def attempt (due took : K) (s : ArrivalLoop K) : ArrivalLoop K :=
  let running := s.running.filter (due < ·)
  if running.length < slots then ⟨(due + took) :: running, s.dropped⟩
  else ⟨running, s.dropped + 1⟩

-- The loop ends with the first attempt that is not due before the deadline.
def run : List (Option K × K) → ArrivalLoop K → ArrivalLoop K
  | [], s                            => s
  | (none, _) :: _, s                => s
  | (some due, took) :: attempts, s  =>
    if due < deadline then run attempts (attempt slots due took s) else s

end ArrivalLoop

end

end Engine
