import Handicap.Engine.Rate
import Mathlib.Algebra.Order.Group.MinMax

open Store

-- The times of the arrivals of an open-loop curve, over an ordered field with a square root.
namespace Engine

variable {K : Type*} [Field K] [LinearOrder K] (sqrt : K → K)

-- A stage of the curve: its rate at `t0 + τ` is `r0 + slope * τ`. There are `cum0` arrivals before
-- it and `area` in it.
structure Seg (K : Type*) where
  t0    : K
  dur   : K
  r0    : K
  slope : K
  cum0  : K
  area  : K

namespace Seg

variable (seg : Seg K) (m : K)

def reaches : Bool :=
  0 < seg.area && m ≤ seg.cum0 + seg.area

-- The solution of `slope / 2 * τ ^ 2 + r0 * τ = delta`, in a form that does not cancel.
def timeAt : K :=
  let delta := max (m - seg.cum0) 0
  if delta = 0 then
    seg.t0
  else
    let disc := max (seg.r0 * seg.r0 + 2 * seg.slope * delta) 0
    let tau  := 2 * delta / (seg.r0 + sqrt disc)
    seg.t0 + min tau seg.dur

end Seg

-- The segments before the cursor have been left behind. After the last one the rate is `tailRate`.
structure ArrivalSchedule (K : Type*) where
  segs     : List (Seg K)
  cursor   : ℕ
  endT     : K
  endCum   : K
  tailRate : K

-- A stage that has no duration is a jump of the rate.
def Stage.seg (t0 r0 cum0 : K) (stage : Stage) : Seg K :=
  let dur : K    := stage.durationSeconds.val
  let target : K := stage.target.val
  { t0
    dur
    r0
    slope := if 0 < dur then (target - r0) / dur else 0
    cum0
    area  := if 0 < dur then (r0 + target) / 2 * dur else 0 }

namespace ArrivalSchedule

def push (s : ArrivalSchedule K) (stage : Stage) : ArrivalSchedule K :=
  let seg := Stage.seg s.endT s.tailRate s.endCum stage
  { s with
    segs     := s.segs ++ [seg]
    endT     := s.endT + seg.dur
    endCum   := s.endCum + seg.area
    tailRate := stage.target.val }

def new (stages : List Stage) : ArrivalSchedule K :=
  stages.foldl push ⟨[], 0, 0, 0, 0⟩

variable (s : ArrivalSchedule K)

-- The cursor goes to the first segment that reaches `m`.
def seek (m : K) : ArrivalSchedule K :=
  { s with cursor := s.cursor + (s.segs.drop s.cursor).findIdx (·.reaches m) }

-- The time of `m`, given the segment that reaches it.
def answer (m : K) : Option (Seg K) → Option K
  | some seg => some (seg.timeAt sqrt m)
  | none     => if 0 < s.tailRate then some (s.endT + max (m - s.endCum) 0 / s.tailRate) else none

def timeAt (m : K) : ArrivalSchedule K × Option K :=
  let s := s.seek m
  (s, s.answer sqrt m s.segs[s.cursor]?)

-- The answers to some queries, one after the other.
def answers : ArrivalSchedule K → List K → List (Option K)
  | _, []      => []
  | s, m :: ms => (s.timeAt sqrt m).2 :: (s.timeAt sqrt m).1.answers ms

end ArrivalSchedule

end Engine
