import Handicap.Engine.Theorems.Arrivals
import Handicap.Report.Criteria
import Mathlib.Algebra.Order.BigOperators.Group.List
import Mathlib.Data.Nat.Cast.Order.Ring
import Mathlib.Order.Bounds.Basic

namespace Report

open Store (F64 U32)

variable {windows : List ReportWindow} {warmup : U32} {t : ℤ}

-- The requests of a second, of which there are none if no step has completed in it.
def throughput (windows : List ReportWindow) (t : ℤ) : ℕ :=
  ((windows.filter (·.tsSecond = t)).map (·.count)).sum

def HasWindow (windows : List ReportWindow) (t : ℤ) : Prop :=
  ∃ w ∈ windows, w.tsSecond = t

-- A second of the steady state: it lies between the first and the last one that have a window,
-- after the warmup.
def Steady (windows : List ReportWindow) (warmup : U32) (t : ℤ) : Prop :=
  ∃ first last, IsLeast {t | HasWindow windows t} first ∧ IsGreatest {t | HasWindow windows t} last ∧
    first < t ∧ t < last ∧ first + warmup.val ≤ t

-- The least throughput of a second of the steady state, if there is one.
def IsMinimum (windows : List ReportWindow) (warmup : U32) : Option ℚ → Prop
  | none   => ∀ t, ¬Steady windows warmup t
  | some m => IsLeast {q : ℚ | ∃ t, Steady windows warmup t ∧ q = throughput windows t} m

theorem throughput_append {windows' : List ReportWindow} :
    throughput (windows ++ windows') t = throughput windows t + throughput windows' t := by
  simp [throughput]

theorem hasWindow_append {windows' : List ReportWindow} :
    HasWindow (windows ++ windows') t ↔ HasWindow windows t ∨ HasWindow windows' t := by
  simp [HasWindow, or_and_right, exists_or]

theorem throughput_of_not_hasWindow (h : ¬HasWindow windows t) : throughput windows t = 0 := by
  have hn : windows.filter (·.tsSecond = t) = [] :=
    List.filter_eq_nil_iff.mpr fun w hw he => h ⟨w, hw, by simpa using he⟩
  simp [throughput, hn]

-- The table has the seconds that have a window, with the requests of them.
theorem lookup_bySecond {n : ℕ} :
    (bySecond windows).lookup t = some n ↔ HasWindow windows t ∧ throughput windows t = n := by
  induction windows using List.reverseRecOn generalizing n
  case nil => simp [bySecond, HasWindow]
  case append_singleton windows w ih =>
    have hc : bySecond (windows ++ [w]) = (bySecond windows).update w.tsSecond 0 (· + w.count) := by
      simp [bySecond]
    rw [hc, SortedTable.lookup_update, throughput_append, hasWindow_append]
    by_cases ht : t = w.tsSecond
    case neg =>
      have hw : ¬HasWindow [w] t := by simpa [HasWindow] using fun he => ht he.symm
      rw [if_neg ht, ih, throughput_of_not_hasWindow hw]
      simp [hw]
    case pos =>
      subst ht
      have hl : ((bySecond windows).lookup w.tsSecond).getD 0 = throughput windows w.tsSecond := by
        cases hb : (bySecond windows).lookup w.tsSecond
        case some n => exact (ih.mp hb).2.symm
        case none =>
          have hn : ¬HasWindow windows w.tsSecond := fun h => by simp [ih.mpr ⟨h, rfl⟩] at hb
          exact (throughput_of_not_hasWindow hn).symm
      rw [if_pos rfl, hl]
      simp [HasWindow, throughput]

theorem mem_bySecond : t ∈ bySecond windows ↔ HasWindow windows t := by
  rw [← Finmap.lookup_isSome, Option.isSome_iff_exists]
  simp [lookup_bySecond]

-- Between the first and the last second.
theorem steady_iff {first last : ℤ} (hf : IsLeast {t | HasWindow windows t} first)
    (hl : IsGreatest {t | HasWindow windows t} last) :
    Steady windows warmup t ↔ first < t ∧ t < last ∧ first + warmup.val ≤ t := by
  refine ⟨?_, fun h => ⟨first, last, hf, hl, h⟩⟩
  rintro ⟨first', last', hf', hl', h⟩
  rw [hf.unique hf', hl.unique hl']
  exact h

-- The seconds that are looked at are those of the steady state that have a window.
theorem minWindowRps_eq {q : ℚ} : minWindowRps windows warmup = some q ↔
    IsLeast {q : ℚ | ∃ t, Steady windows warmup t ∧ HasWindow windows t ∧
      q = throughput windows t} q := by
  have hset : {k | k ∈ bySecond windows} = {t | HasWindow windows t} :=
    Set.ext fun _ => mem_bySecond
  have hrows {first last : ℤ} (hf : IsLeast {t | HasWindow windows t} first)
      (hl : IsGreatest {t | HasWindow windows t} last) (q : ℚ) :
      q ∈ (((bySecond windows).toList.filter fun e =>
        first < e.1 && e.1 < last && first + warmup.val ≤ e.1).map fun e => (e.2 : ℚ)) ↔
      ∃ t, Steady windows warmup t ∧ HasWindow windows t ∧ q = throughput windows t := by
    simp only [List.mem_map, List.mem_filter, Prod.exists, SortedTable.mem_toList, lookup_bySecond,
      Bool.and_eq_true, decide_eq_true_eq, steady_iff hf hl, and_assoc]
    constructor
    case mp  => exact fun ⟨t, n, hw, hn, h₁, h₂, h₃, hq⟩ => ⟨t, h₁, h₂, h₃, hw, hn ▸ hq.symm⟩
    case mpr => exact fun ⟨t, h₁, h₂, h₃, hw, hq⟩ => ⟨t, _, hw, rfl, h₁, h₂, h₃, hq.symm⟩
  simp only [minWindowRps, Option.bind_eq_bind, Option.bind_eq_some_iff, List.min?_eq_some_iff,
    SortedTable.head?_toList, SortedTable.getLast?_toList, hset]
  constructor
  case mp =>
    rintro ⟨first, hf, last, hl, hq, hmin⟩
    exact ⟨(hrows hf hl q).mp hq, fun q' hq' => hmin q' ((hrows hf hl q').mpr hq')⟩
  case mpr =>
    rintro ⟨hq, hmin⟩
    have ⟨_, ⟨first, last, hf, hl, _⟩, _⟩ := hq
    exact ⟨first, hf, last, hl, (hrows hf hl q).mpr hq,
      fun q' hq' => hmin ((hrows hf hl q').mp hq')⟩

theorem exists_minWindowRps (hs : Steady windows warmup t) (hw : HasWindow windows t) :
    ∃ q, minWindowRps windows warmup = some q := by
  have ⟨n, ⟨t, hs, hw, hn⟩, hmin⟩ := WellFounded.has_min Nat.lt_wfRel.wf
    {n | ∃ t, Steady windows warmup t ∧ HasWindow windows t ∧ n = throughput windows t}
    ⟨_, t, hs, hw, rfl⟩
  refine ⟨n, minWindowRps_eq.2 ⟨⟨t, hs, hw, by rw [hn]⟩, ?_⟩⟩
  rintro _ ⟨t', hs', hw', rfl⟩
  exact Nat.cast_le.mpr (not_lt.mp (hmin _ ⟨t', hs', hw', rfl⟩))

-- What the criterion is for: it looks at the least throughput of the steady state, and a run that
-- stalls there for a second does not pass if the threshold is positive.
structure CatchesStalls (windows : List ReportWindow) (warmup : U32) : Prop where
  minimum : IsMinimum windows warmup (minWindowRps windows warmup)
  stalls  : ∀ (B : Type) (c : Criteria) (s : ReportSummary) (rps : ℚ) (dist : StatusCounts)
    (steps : List (ReportStep B)) (threshold : ℚ), c.minWindowRps = some (.finite threshold) →
    c.rpsWarmupSeconds.getD 0 = warmup → 0 < threshold →
      (∃ t, Steady windows warmup t ∧ throughput windows t = 0) →
        (evaluateCriteria c s rps dist windows steps).passed = false

-- A verdict fails with any of its criteria.
theorem evaluateCriteria_window {B : Type} {c : Criteria} {s : ReportSummary} {rps q threshold : ℚ}
    {dist : StatusCounts} {steps : List (ReportStep B)}
    (hc : c.minWindowRps = some (.finite threshold))
    (hm : minWindowRps windows (c.rpsWarmupSeconds.getD 0) = some q) (hq : q < threshold) :
    (evaluateCriteria c s rps dist windows steps).passed = false := by
  have hr : pushWindowRps c windows = [minCriterion "min_window_rps" (.finite threshold) q] := by
    simp [pushWindowRps, hc, hm]
  have hp : (minCriterion "min_window_rps" (.finite threshold) q).passed = false := by
    simp [minCriterion, atLeast, hq]
  simp only [evaluateCriteria, hr, List.all_append, List.all_cons, hp, Bool.false_and,
    Bool.and_false]

theorem IsMinimum.eq_zero {m : Option ℚ} (h : IsMinimum windows warmup m)
    (hs : Steady windows warmup t) (ht : throughput windows t = 0) : m = some 0 := by
  cases m
  case none => exact absurd hs (h t)
  case some q =>
    have ⟨⟨t', _, hq⟩, hmin⟩ := h
    have hle : q ≤ 0 := hmin ⟨t, hs, by simp [ht]⟩
    have hge : 0 ≤ q := hq ▸ Nat.cast_nonneg _
    rw [hle.antisymm hge]

theorem IsMinimum.catchesStalls (h : IsMinimum windows warmup (minWindowRps windows warmup)) :
    CatchesStalls windows warmup := by
  refine ⟨h, fun B c s rps dist steps threshold hc hw ht ⟨t, hs, h0⟩ => ?_⟩
  subst hw
  exact evaluateCriteria_window hc (h.eq_zero hs h0) ht

-- It does so if every second of the steady state has a window, or if one of them has windows
-- without requests.
theorem catchesStalls_iff : CatchesStalls windows warmup ↔
    (∀ t, Steady windows warmup t → ∃ w ∈ windows, w.tsSecond = t) ∨
      ∃ t, Steady windows warmup t ∧ (∃ w ∈ windows, w.tsSecond = t) ∧
        ∀ w ∈ windows, w.tsSecond = t → w.count = 0 := by
  have hzero (t : ℤ) : (∀ w ∈ windows, w.tsSecond = t → w.count = 0) ↔ throughput windows t = 0 := by
    simp only [throughput, List.sum_eq_zero_iff, List.mem_map, List.mem_filter, decide_eq_true_eq]
    constructor
    case mp =>
      rintro h _ ⟨w, ⟨hw, ht⟩, rfl⟩
      exact h w hw ht
    case mpr => exact fun h w hw ht => h _ ⟨w, ⟨hw, ht⟩, rfl⟩
  simp only [hzero]
  constructor
  case mp =>
    rintro ⟨h, -⟩
    by_contra hn
    obtain ⟨hall, hpos⟩ := not_or.mp hn
    obtain ⟨t, ht⟩ := not_forall.mp hall
    obtain ⟨hs, hw⟩ := Classical.not_imp.mp ht
    have hm := h.eq_zero hs (throughput_of_not_hasWindow hw)
    obtain ⟨⟨t', hs', hw', h0⟩, -⟩ := minWindowRps_eq.1 hm
    exact hpos ⟨t', hs', hw', Nat.cast_eq_zero.mp h0.symm⟩
  case mpr =>
    refine fun h => IsMinimum.catchesStalls ?_
    obtain hall | ⟨t, hs, hw, h0⟩ := h
    case inl =>
      cases hm : minWindowRps windows warmup
      case none =>
        intro t hs
        have ⟨q, hq⟩ := exists_minWindowRps hs (hall t hs)
        simp [hm] at hq
      case some q =>
        obtain ⟨⟨t, hs, -, hq⟩, hmin⟩ := minWindowRps_eq.1 hm
        refine ⟨⟨t, hs, hq⟩, ?_⟩
        rintro _ ⟨t', hs', rfl⟩
        exact hmin ⟨t', hs', hall t' hs', rfl⟩
    case inr =>
      have hm : minWindowRps windows warmup = some 0 := by
        refine minWindowRps_eq.2 ⟨⟨t, hs, hw, by simp [h0]⟩, ?_⟩
        rintro _ ⟨t', -, -, rfl⟩
        exact Nat.cast_nonneg _
      rw [hm]
      refine ⟨⟨t, hs, by simp [h0]⟩, ?_⟩
      rintro _ ⟨t', -, rfl⟩
      exact Nat.cast_nonneg _

def stalledWindow (t : ℤ) : ReportWindow where
  tsSecond     := t
  stepId       := ⟨"a"⟩
  count        := 100
  errorCount   := 0
  statusCounts := ∅
  percentiles  := .empty

-- The run stalls for a second in the middle.
theorem catchesStalls_counterexample :
    ¬CatchesStalls ([0, 1, 3, 4].map stalledWindow) 0 := by
  have hw (t : ℤ) : HasWindow ([0, 1, 3, 4].map stalledWindow) t ↔ t = 0 ∨ t = 1 ∨ t = 3 ∨ t = 4 := by
    simp [HasWindow, stalledWindow, eq_comm]
  have hs : Steady ([0, 1, 3, 4].map stalledWindow) 0 2 := by
    refine ⟨0, 4, ⟨(hw 0).mpr (by simp), fun t ht => ?_⟩, ⟨(hw 4).mpr (by simp), fun t ht => ?_⟩,
      by decide⟩
    all_goals
      have ht := (hw t).mp ht
      omega
  intro h
  have hn : ¬HasWindow ([0, 1, 3, 4].map stalledWindow) 2 := fun h => absurd ((hw 2).mp h) (by decide)
  have hm := h.minimum.eq_zero hs (throughput_of_not_hasWindow hn)
  obtain ⟨⟨t, -, ht, h0⟩, -⟩ := minWindowRps_eq.1 hm
  obtain rfl | rfl | rfl | rfl := (hw t).mp ht <;>
    exact absurd (Nat.cast_eq_zero.mp h0.symm) (by decide)

section

open Store Engine ArrivalSchedule

-- The report counts the arrivals of the curve that the engine follows.
variable {T s₀ r₀ total : ℝ} {stages : List Stage}

theorem scheduledFrom_eq (h : s₀ ≤ T) :
    scheduledFrom T total s₀ r₀ stages = total + areaFrom r₀ stages (T - s₀) := by
  induction stages generalizing total s₀ r₀
  case nil =>
    rw [scheduledFrom, areaFrom]
    split
    case isTrue => rfl
    case isFalse hn => rw [le_antisymm h (not_lt.mp hn), sub_self, mul_zero, add_zero]
  case cons stage stages ih =>
    simp only [scheduledFrom]
    split_ifs with hend hin
    case pos =>
      rw [ih hend, areaFrom_after (le_sub_iff_add_le'.mpr hend), stageArea, sub_sub, add_assoc]
    case pos =>
      have hd : (stage.durationSeconds.val : ℝ) ≠ 0 := hin.right.ne'
      rw [areaFrom, if_pos (by linarith), areaWithin]
      field_simp
      ring
    case neg =>
      have hs : T = s₀ := by
        by_contra hne
        exact hin ⟨lt_of_le_of_ne h (Ne.symm hne), by linarith⟩
      rw [hs, sub_self, areaFrom_zero, add_zero]

theorem areaWithin_continuous (stage : Stage) : Continuous (areaWithin r₀ stage) := by
  unfold areaWithin
  fun_prop

-- The stages meet at their ends.
theorem areaFrom_continuous : Continuous (areaFrom r₀ stages) := by
  induction stages generalizing r₀
  case nil => exact continuous_const.mul continuous_id
  case cons stage stages ih =>
    have hrest : Continuous fun τ =>
        areaFrom stage.target.val stages (τ - stage.durationSeconds.val) :=
      ih.comp (continuous_id.sub continuous_const)
    refine Continuous.if_le (areaWithin_continuous stage) (continuous_const.add hrest) continuous_id
      continuous_const fun τ h => ?_
    rw [h, areaWithin_duration, sub_self, areaFrom_zero, add_zero]

-- The number of arrival attempts before a time is what is scheduled up to it, rounded.
theorem scheduledArrivals_integral (stages : List Stage) (h : stages ≠ []) :
    ∃ scheduled : ℝ → ℝ,
      (∀ T, scheduledArrivals none (some stages) T = some (scheduled T)) ∧
      (∀ T, 0 ≤ T → scheduled T = ∫ t in (0 : ℝ)..T, rateAt stages t) ∧
      MonotoneOn scheduled (Set.Ici 0) ∧ ContinuousOn scheduled (Set.Ici 0) ∧
      ∀ T, 0 ≤ T → ∃ n : ℕ,
        (∀ k : ℕ, (∃ t < T, (timeAt Real.sqrt (new stages) (k + 1 / 2)).2 = some t) ↔ k < n) ∧
        |n - scheduled T| ≤ 1 / 2 := by
  have he (T : ℝ) (hT : 0 ≤ T) : scheduledFrom T 0 0 0 stages = cumulative stages T := by
    rw [scheduledFrom_eq hT, zero_add, sub_zero, cumulative_eq hT]
  have hmono : MonotoneOn (cumulative stages) (Set.Ici 0) := fun t ht _ _ h => cumulative_mono ht h
  refine ⟨(scheduledFrom · 0 0 0 stages), fun T => ?_, he, ?_, ?_, fun T hT => ?_⟩
  case refine_1 => simp [scheduledArrivals, Option.filter, h]
  case refine_2 => exact hmono.congr fun T hT => (he T hT).symm
  case refine_3 =>
    refine (@areaFrom_continuous 0 stages).continuousOn.congr fun T hT => ?_
    rw [scheduledFrom_eq hT, zero_add, sub_zero]
  case refine_4 =>
    have hT0 : 0 ≤ cumulative stages T := by
      have h0 : cumulative stages 0 ≤ cumulative stages T := cumulative_mono le_rfl hT
      simpa [cumulative] using h0
    simp only [he T hT]
    exact Crossing.count_halves (fun k => fresh_isFirst (by positivity)) hmono hT hT0

-- A ramp to a hundred arrivals a second, a jump to twice as many and a fall to none.
def rampJumpFall : List Stage :=
  [⟨100, 10⟩, ⟨200, 0⟩, ⟨0, 20⟩]

theorem scheduledArrivals_integral_ramp : ∃ scheduled : ℝ → ℝ,
    (∀ T, scheduledArrivals none (some rampJumpFall) T = some (scheduled T)) ∧
    (∀ T, 0 ≤ T → scheduled T = ∫ t in (0 : ℝ)..T, rateAt rampJumpFall t) ∧
    MonotoneOn scheduled (Set.Ici 0) ∧ ContinuousOn scheduled (Set.Ici 0) := by
  obtain ⟨scheduled, hs, hi, hm, hc, -⟩ := scheduledArrivals_integral rampJumpFall (by decide)
  exact ⟨scheduled, hs, hi, hm, hc⟩

-- A list without stages counts as no curve at all.
theorem scheduledArrivals_no_stages :
    scheduledArrivals none (some []) 60 ≠ some (∫ t in (0 : ℝ)..60, rateAt [] t) := by
  simp [scheduledArrivals, Option.filter]

end

end Report
