import Handicap.Store.Profile
import Mathlib.Algebra.BigOperators.Group.Finset.Basic
import Mathlib.Algebra.BigOperators.Ring.Finset
import Mathlib.Algebra.Order.Field.Basic
import Mathlib.Tactic.Ring

open Store

-- The arrival rate of a piecewise linear stage curve, over an ordered field.
namespace Engine

variable {K : Type*} [Field K] [LinearOrder K]

-- The rate at `elapsed` for the stages that are left: the first of them starts at `segStart`, with
-- the rate `prevTarget`.
def rateFrom (elapsed segStart prevTarget : K) : List Stage → K
  | []             => prevTarget
  | stage :: stages =>
    let segEnd := segStart + stage.durationSeconds.val
    let target : K := stage.target.val
    if elapsed ≤ segEnd then
      let span := segEnd - segStart
      if span ≤ 0 then
        target
      else
        let frac := (elapsed - segStart) / span
        prevTarget + frac * (target - prevTarget)
    else
      rateFrom elapsed segEnd target stages

def rateAt (stages : List Stage) (elapsed : K) : K :=
  rateFrom elapsed 0 0 stages

-- The stages with their targets changed by `f`.
def retarget (f : U32 → U32) (stages : List Stage) : List Stage :=
  stages.map fun s => { s with target := f s.target }

variable {ι : Type*} [Fintype ι] {stages : List Stage}

-- The rate is linear in the targets, so curves whose targets add up stage by stage have rates that
-- add up at every time.
theorem sum_rateFrom_retarget (f : ι → U32 → U32) (elapsed segStart : K) (prevTargets : ι → K)
    (h : ∀ s ∈ stages, ∑ i, (f i s.target).val = s.target.val) :
    ∑ i, rateFrom elapsed segStart (prevTargets i) (retarget (f i) stages) =
      rateFrom elapsed segStart (∑ i, prevTargets i) stages := by
  induction stages generalizing segStart prevTargets
  case nil => rfl
  case cons s stages ih =>
    have hs : (∑ i, ((f i s.target).val : K)) = s.target.val :=
      mod_cast congrArg (Nat.cast (R := K)) (h s (by simp))
    simp only [retarget, List.map_cons, rateFrom]
    split_ifs
    case pos => exact hs
    case neg =>
      rw [Finset.sum_add_distrib, ← Finset.mul_sum, Finset.sum_sub_distrib, hs]
    case neg =>
      rw [← hs]
      exact ih _ _ fun s hm => h s (by simp [hm])

theorem sum_rateAt_retarget (f : ι → U32 → U32) (elapsed : K)
    (h : ∀ s ∈ stages, ∑ i, (f i s.target).val = s.target.val) :
    ∑ i, rateAt (retarget (f i) stages) elapsed = rateAt stages elapsed := by
  have hs := sum_rateFrom_retarget f elapsed (0 : K) (fun _ => 0) h
  rwa [Finset.sum_const_zero] at hs

end Engine
