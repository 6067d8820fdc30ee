import Handicap.Engine.Rate
import Mathlib.Analysis.SpecialFunctions.Integrals.Basic

open Store MeasureTheory intervalIntegral

-- The arrivals of a curve up to a time, as the integral of its rate.
namespace Engine

-- The integral of a function between two bounds.
structure Integrates (f : ℝ → ℝ) (a b v : ℝ) : Prop where
  integrable : IntervalIntegrable f volume a b
  integral   : ∫ s in a..b, f s = v

namespace Integrates

variable {f g : ℝ → ℝ} {a b c v w : ℝ}

theorem congr (h : Integrates f a b v) (hab : a ≤ b) (hfg : ∀ s, a < s → s ≤ b → g s = f s) :
    Integrates g a b v := by
  have he : Set.EqOn f g (Set.uIoc a b) := by
    rw [Set.uIoc_of_le hab]
    exact fun s hs => (hfg s hs.1 hs.2).symm
  refine ⟨h.integrable.congr he, ?_⟩
  rw [← h.integral]
  exact (integral_congr_ae (.of_forall fun s hs => he hs)).symm

theorem trans (h : Integrates f a b v) (h' : Integrates f b c w) : Integrates f a c (v + w) :=
  ⟨h.integrable.trans h'.integrable, by
    rw [← integral_add_adjacent_intervals h.integrable h'.integrable, h.integral, h'.integral]⟩

-- The area under a linear stretch.
theorem linear (a τ r k : ℝ) :
    Integrates (fun s => r + k * (s - a)) a (a + τ) (r * τ + k / 2 * τ ^ 2) := by
  have hi : IntervalIntegrable (fun s => r + k * (s - a)) volume a (a + τ) :=
    Continuous.intervalIntegrable (by fun_prop) ..
  have hd (s : ℝ) : HasDerivAt (fun s => r * (s - a) + k / 2 * (s - a) ^ 2) (r + k * (s - a)) s := by
    have hs : HasDerivAt (fun s => s - a) 1 s := (hasDerivAt_id s).sub_const a
    refine ((hs.const_mul r).fun_add ((hs.fun_pow 2).const_mul (k / 2))).congr_deriv ?_
    norm_num
    ring
  refine ⟨hi, ?_⟩
  rw [integral_eq_sub_of_hasDerivAt (fun s _ => hd s) hi]
  ring

end Integrates

noncomputable def cumulative (stages : List Stage) (t : ℝ) : ℝ :=
  ∫ s in (0 : ℝ)..t, rateAt stages s

-- The area of a stage.
noncomputable def stageArea (r₀ : ℝ) (stage : Stage) : ℝ :=
  (r₀ + stage.target.val) / (2 : ℕ) * stage.durationSeconds.val

-- The area from the start of a stage, within the stage.
noncomputable def areaWithin (r₀ : ℝ) (stage : Stage) (τ : ℝ) : ℝ :=
  r₀ * τ + (stage.target.val - r₀) / stage.durationSeconds.val / (2 : ℕ) * τ ^ 2

-- The area up to `τ` from the start of the stages that are left.
noncomputable def areaFrom (r₀ : ℝ) : List Stage → ℝ → ℝ
  | [], τ              => r₀ * τ
  | stage :: stages, τ =>
    if τ ≤ stage.durationSeconds.val then areaWithin r₀ stage τ
    else stageArea r₀ stage + areaFrom stage.target.val stages (τ - stage.durationSeconds.val)

variable {r₀ t₀ τ t : ℝ} {stage : Stage} {stages : List Stage}

theorem rateFrom_stage (h₀ : t₀ < t) (h : t ≤ t₀ + stage.durationSeconds.val) :
    rateFrom t t₀ r₀ (stage :: stages) =
      r₀ + (stage.target.val - r₀) / stage.durationSeconds.val * (t - t₀) := by
  have hd : ¬(stage.durationSeconds.val : ℝ) ≤ 0 := by linarith
  simp only [rateFrom, if_pos h, add_sub_cancel_left, if_neg hd]
  ring

theorem rateFrom_rest (h : t₀ + stage.durationSeconds.val < t) :
    rateFrom t t₀ r₀ (stage :: stages) =
      rateFrom t (t₀ + stage.durationSeconds.val) stage.target.val stages := by
  simp only [rateFrom, if_neg (not_le.mpr h)]

theorem areaWithin_duration : areaWithin r₀ stage stage.durationSeconds.val = stageArea r₀ stage := by
  unfold areaWithin stageArea
  by_cases hd : (stage.durationSeconds.val : ℝ) = 0
  case pos => simp [hd]
  case neg =>
    field_simp
    ring

theorem integrates_rateFrom (h : 0 ≤ τ) :
    Integrates (rateFrom · t₀ r₀ stages) t₀ (t₀ + τ) (areaFrom r₀ stages τ) := by
  induction stages generalizing t₀ r₀ τ
  case nil =>
    have hl := Integrates.linear t₀ τ r₀ 0
    rw [zero_div, zero_mul, add_zero] at hl
    exact hl.congr (by linarith) fun s _ _ => by simp [rateFrom]
  case cons stage stages ih =>
    have hwithin (τ : ℝ) (h : 0 ≤ τ) (hτ : τ ≤ stage.durationSeconds.val) :
        Integrates (rateFrom · t₀ r₀ (stage :: stages)) t₀ (t₀ + τ) (areaWithin r₀ stage τ) :=
      (Integrates.linear t₀ τ r₀ _).congr (by linarith) fun s hs hs' =>
        rateFrom_stage hs (hs'.trans (by linarith))
    by_cases hτ : τ ≤ stage.durationSeconds.val
    case pos =>
      rw [areaFrom, if_pos hτ]
      exact hwithin τ h hτ
    case neg =>
      rw [areaFrom, if_neg hτ]
      have hstage := hwithin _ (Nat.cast_nonneg _) le_rfl
      rw [areaWithin_duration] at hstage
      refine hstage.trans ?_
      have hrest := @ih stage.target.val (t₀ + stage.durationSeconds.val)
        (τ - stage.durationSeconds.val) (by linarith)
      rw [add_assoc, add_sub_cancel] at hrest
      exact hrest.congr (by linarith) fun s hs _ => rateFrom_rest hs

theorem cumulative_eq (h : 0 ≤ t) : cumulative stages t = areaFrom 0 stages t := by
  have hi : Integrates (rateFrom · 0 0 stages) 0 (0 + t) (areaFrom 0 stages t) :=
    integrates_rateFrom h
  rw [zero_add] at hi
  exact hi.integral

-- The rate is never negative.
theorem rateFrom_nonneg (hr : 0 ≤ r₀) (h : t₀ ≤ t) : 0 ≤ rateFrom t t₀ r₀ stages := by
  induction stages generalizing t₀ r₀
  case nil => exact hr
  case cons stage stages ih =>
    simp only [rateFrom]
    split_ifs with he hd
    case pos => exact Nat.cast_nonneg _
    case neg =>
      have hpos : 0 < t₀ + stage.durationSeconds.val - t₀ := not_le.mp hd
      have hfrac : (t - t₀) / (t₀ + stage.durationSeconds.val - t₀) ≤ 1 :=
        (div_le_one hpos).mpr (by linarith)
      have hfrac₀ : 0 ≤ (t - t₀) / (t₀ + stage.durationSeconds.val - t₀) :=
        div_nonneg (by linarith) hpos.le
      have htarget : (0 : ℝ) ≤ stage.target.val := Nat.cast_nonneg _
      nlinarith
    case neg => exact ih (Nat.cast_nonneg _) (not_le.mp he).le

theorem integrable_rateAt (h : 0 ≤ t) (h' : t ≤ τ) :
    IntervalIntegrable (rateAt stages) volume t τ := by
  have hi : Integrates (rateFrom · 0 0 stages) 0 (0 + τ) (areaFrom 0 stages τ) :=
    integrates_rateFrom (h.trans h')
  rw [zero_add] at hi
  refine hi.integrable.mono_set ?_
  rw [Set.uIcc_of_le h', Set.uIcc_of_le (h.trans h')]
  exact Set.Icc_subset_Icc_left h

theorem cumulative_add (h : 0 ≤ t) (h' : t ≤ τ) :
    cumulative stages t + ∫ s in t..τ, rateAt stages s = cumulative stages τ :=
  integral_add_adjacent_intervals (integrable_rateAt le_rfl h) (integrable_rateAt h h')

theorem cumulative_mono (h : 0 ≤ t) (h' : t ≤ τ) : cumulative stages t ≤ cumulative stages τ := by
  have hn : 0 ≤ ∫ s in t..τ, rateAt stages s :=
    integral_nonneg h' fun s hs => rateFrom_nonneg le_rfl (h.trans hs.1)
  rw [← cumulative_add h h']
  linarith

end Engine
