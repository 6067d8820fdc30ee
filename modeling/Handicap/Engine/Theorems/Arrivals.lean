import Handicap.Engine.Arrivals
import Handicap.Engine.Theorems.Cumulative
import Handicap.Library.Crossing
import Mathlib.Analysis.Real.Sqrt

open Store Crossing

namespace Engine

variable {t₀ r₀ cum₀ m τ : ℝ} {stage : Stage} {stages : List Stage}

-- The area between two times of a stage is that of a trapezoid.
theorem areaWithin_sub (r₀ : ℝ) (stage : Stage) (x y : ℝ) :
    areaWithin r₀ stage y - areaWithin r₀ stage x =
    (y - x) / 2 * ((r₀ + (stage.target.val - r₀) / stage.durationSeconds.val * x) +
      (r₀ + (stage.target.val - r₀) / stage.durationSeconds.val * y)) := by
  unfold areaWithin
  ring

theorem areaWithin_zero : areaWithin r₀ stage 0 = 0 := by
  simp [areaWithin]

-- The rate within a stage lies between those at its ends.
theorem rate_nonneg (stage : Stage) (hr : 0 ≤ r₀) (h : 0 ≤ τ) (hτ : τ ≤ stage.durationSeconds.val) :
    0 ≤ r₀ + (stage.target.val - r₀) / stage.durationSeconds.val * τ := by
  have ht : (0 : ℝ) ≤ stage.target.val := Nat.cast_nonneg _
  obtain hd | hd := (h.trans hτ).eq_or_lt
  case inl => simpa [← hd] using hr
  case inr =>
    have hfrac : τ / stage.durationSeconds.val ≤ 1 := (div_le_one hd).mpr hτ
    have hfrac₀ : 0 ≤ τ / stage.durationSeconds.val := div_nonneg h hd.le
    have he : (stage.target.val - r₀) / stage.durationSeconds.val * τ =
        τ / stage.durationSeconds.val * (stage.target.val - r₀) := by ring
    rw [he]
    nlinarith

theorem areaWithin_mono {x y : ℝ} (hr : 0 ≤ r₀) (hx : 0 ≤ x) (hxy : x ≤ y)
    (hy : y ≤ stage.durationSeconds.val) : areaWithin r₀ stage x ≤ areaWithin r₀ stage y := by
  have hs := areaWithin_sub r₀ stage x y
  have h₁ := rate_nonneg stage hr hx (hxy.trans hy)
  have h₂ := rate_nonneg stage hr (hx.trans hxy) hy
  have hn : 0 ≤ (y - x) / 2 * ((r₀ + (stage.target.val - r₀) / stage.durationSeconds.val * x) +
      (r₀ + (stage.target.val - r₀) / stage.durationSeconds.val * y)) :=
    mul_nonneg (by linarith) (by linarith)
  linarith

-- It grows strictly in a stage that has an area.
theorem areaWithin_strict {x y : ℝ} (hr : 0 ≤ r₀) (ha : 0 < stageArea r₀ stage) (hx : 0 ≤ x)
    (hxy : x < y) (hy : y ≤ stage.durationSeconds.val) :
    areaWithin r₀ stage x < areaWithin r₀ stage y := by
  have hs := areaWithin_sub r₀ stage x y
  have h₁ := rate_nonneg stage hr hx (hxy.le.trans hy)
  have h₂ := rate_nonneg stage hr (hx.trans hxy.le) hy
  have hd : (0 : ℝ) < stage.durationSeconds.val := hx.trans_lt (hxy.trans_le hy)
  have ht : (0 : ℝ) ≤ stage.target.val := Nat.cast_nonneg _
  by_contra hle
  -- Otherwise the rate is zero at two times, and everywhere in the stage.
  have hzero : (r₀ + (stage.target.val - r₀) / stage.durationSeconds.val * x) +
      (r₀ + (stage.target.val - r₀) / stage.durationSeconds.val * y) ≤ 0 := by
    by_contra hpos
    have := mul_pos (by linarith : 0 < (y - x) / 2) (not_le.mp hpos)
    linarith
  generalize hk : (stage.target.val - r₀) / stage.durationSeconds.val = k at h₁ h₂ hzero
  have hkd : (stage.target.val : ℝ) - r₀ = k * stage.durationSeconds.val := by
    rw [← hk, div_mul_cancel₀ _ hd.ne']
  have hkxy : k * (y - x) = 0 := by linarith
  have hk0 : k = 0 := (mul_eq_zero.mp hkxy).resolve_right (by linarith)
  rw [hk0] at hkd h₁ h₂ hzero
  have hr0 : r₀ = 0 := by linarith
  have ht0 : (stage.target.val : ℝ) = 0 := by linarith
  simp [stageArea, hr0, ht0] at ha

theorem seg_slope : (Stage.seg t₀ r₀ cum₀ stage).slope =
    (stage.target.val - r₀) / stage.durationSeconds.val := by
  simp only [Stage.seg]
  split_ifs with hd
  case pos => rfl
  case neg =>
    have h0 : (stage.durationSeconds.val : ℝ) = 0 := (not_lt.mp hd).antisymm (Nat.cast_nonneg _)
    rw [h0, div_zero]

theorem seg_area : (Stage.seg t₀ r₀ cum₀ stage).area = stageArea r₀ stage := by
  simp only [Stage.seg, stageArea]
  split_ifs with hd
  case pos => rfl
  case neg =>
    have h0 : (stage.durationSeconds.val : ℝ) = 0 := (not_lt.mp hd).antisymm (Nat.cast_nonneg _)
    rw [h0, mul_zero]

theorem seg_reaches : (Stage.seg t₀ r₀ cum₀ stage).reaches m = true ↔
    0 < stageArea r₀ stage ∧ m ≤ cum₀ + stageArea r₀ stage := by
  simp only [Seg.reaches, Bool.and_eq_true, decide_eq_true_eq, seg_area]
  exact Iff.rfl

-- The discriminant is a square, so that the denominator of the closed form is not zero.
theorem disc_spec {d r q k δ : ℝ} (hd : 0 < d) (hr : 0 ≤ r) (hq : 0 ≤ q) (hk : k * d = q - r)
    (hδ : 0 < δ) (hle : δ ≤ (r + q) / 2 * d) :
    √(max (r * r + 2 * k * δ) 0) ^ 2 = r * r + 2 * k * δ ∧ 0 < r + √(max (r * r + 2 * k * δ) 0) := by
  have hdisc : 0 ≤ r * r + 2 * k * δ := by
    obtain hk0 | hk0 := le_or_gt 0 k
    case inl => positivity
    case inr =>
      have hkδ : k * ((r + q) / 2 * d) ≤ k * δ := mul_le_mul_of_nonpos_left hle hk0.le
      have he : k * ((r + q) / 2 * d) = (q * q - r * r) / 2 := by
        calc k * ((r + q) / 2 * d) = k * d * ((r + q) / 2) := by ring
          _ = (q * q - r * r) / 2 := by rw [hk]; ring
      nlinarith [mul_nonneg hq hq]
  rw [max_eq_left hdisc]
  refine ⟨Real.sq_sqrt hdisc, ?_⟩
  obtain rfl | hr := hr.eq_or_lt
  case inr => exact add_pos_of_pos_of_nonneg hr (Real.sqrt_nonneg _)
  case inl =>
    have hq0 : 0 < q := by
      by_contra hq0
      have h0 : q = 0 := le_antisymm (not_lt.mp hq0) hq
      rw [h0] at hle
      linarith
    have hk0 : 0 < k := by
      by_contra hk0
      nlinarith [not_lt.mp hk0]
    rw [zero_add]
    exact Real.sqrt_pos.mpr (by positivity)

-- The closed form gives the time in the stage at which the area is reached.
theorem tau_spec {d r q k δ : ℝ} (hd : 0 < d) (hr : 0 ≤ r) (hq : 0 ≤ q) (hk : k * d = q - r)
    (hδ : 0 < δ) (hle : δ ≤ (r + q) / 2 * d) {tau : ℝ}
    (ht : tau = 2 * δ / (r + √(max (r * r + 2 * k * δ) 0))) :
    0 < tau ∧ tau ≤ d ∧ r * tau + k / 2 * tau ^ 2 = δ := by
  obtain ⟨hsq, hpos⟩ := disc_spec hd hr hq hk hδ hle
  have hx0 := Real.sqrt_nonneg (max (r * r + 2 * k * δ) 0)
  generalize √(max (r * r + 2 * k * δ) 0) = x at *
  have htau : tau * (r + x) = 2 * δ := by rw [ht, div_mul_cancel₀ _ hpos.ne']
  have htau0 : 0 < tau := ht ▸ div_pos (by linarith) hpos
  -- The rate at the solution is the root.
  have hrate : k * tau = x - r := by
    refine mul_right_cancel₀ hpos.ne' ?_
    calc k * tau * (r + x) = k * (tau * (r + x)) := by ring
      _ = (x - r) * (r + x) := by rw [htau]; linarith
  have harea : r * tau + k / 2 * tau ^ 2 = δ := by
    calc r * tau + k / 2 * tau ^ 2 = tau * (r + k * tau / 2) := by ring
      _ = tau * (r + x) / 2 := by rw [hrate]; ring
      _ = δ := by rw [htau]; ring
  refine ⟨htau0, ?_, harea⟩
  by_contra hlt
  have hgt : 0 < tau - d := sub_pos.mpr (not_le.mp hlt)
  -- The stretch after the stage would have no area, so that its rate would be zero.
  have htrap : (tau - d) * (q + x) = 2 * δ - (r + q) * d := by
    calc (tau - d) * (q + x) = tau * (r + x) + tau * (q - r) - d * (q + x) := by ring
      _ = 2 * δ + k * tau * d - d * (q + x) := by rw [htau, ← hk]; ring
      _ = 2 * δ - (r + q) * d := by rw [hrate]; ring
  have hsum : q + x ≤ 0 := by
    by_contra hp
    have := mul_pos hgt (not_le.mp hp)
    linarith
  have hq0 : q = 0 := by linarith
  have hxz : x = 0 := by linarith
  rw [hq0] at hk
  rw [hxz] at hrate hpos
  have hk0 : k * (tau - d) = 0 := by linarith
  have hkz : k = 0 := (mul_eq_zero.mp hk0).resolve_right hgt.ne'
  rw [hkz] at hk
  linarith

theorem seg_timeAt (hr : 0 ≤ r₀) (hm : cum₀ < m)
    (h : (Stage.seg t₀ r₀ cum₀ stage).reaches m = true) :
    ∃ τ, (Stage.seg t₀ r₀ cum₀ stage).timeAt Real.sqrt m = t₀ + τ ∧ 0 < τ ∧
      τ ≤ stage.durationSeconds.val ∧ areaWithin r₀ stage τ = m - cum₀ := by
  obtain ⟨ha, hle⟩ := seg_reaches.1 h
  have hq : (0 : ℝ) ≤ stage.target.val := Nat.cast_nonneg _
  have hd : (0 : ℝ) < stage.durationSeconds.val := by
    by_contra hd
    have h0 : (stage.durationSeconds.val : ℝ) = 0 := (not_lt.mp hd).antisymm (Nat.cast_nonneg _)
    simp [stageArea, h0] at ha
  have hδ : 0 < m - cum₀ := sub_pos.mpr hm
  obtain ⟨h₁, h₂, h₃⟩ := tau_spec hd hr hq (div_mul_cancel₀ _ hd.ne') hδ
    (by unfold stageArea at hle; linarith) rfl
  refine ⟨_, ?_, h₁, h₂, h₃⟩
  have hmax : max (m - (Stage.seg t₀ r₀ cum₀ stage).cum0) 0 = m - cum₀ := max_eq_left hδ.le
  simp only [Seg.timeAt, hmax, if_neg hδ.ne', seg_slope]
  exact congrArg (t₀ + ·) (min_eq_left h₂)

namespace ArrivalSchedule

-- The schedule of the stages that are left.
noncomputable def rest (t₀ r₀ cum₀ : ℝ) : List Stage → ArrivalSchedule ℝ
  | []              => ⟨[], 0, t₀, cum₀, r₀⟩
  | stage :: stages =>
    let seg := Stage.seg t₀ r₀ cum₀ stage
    let s   := rest (t₀ + seg.dur) stage.target.val (cum₀ + seg.area) stages
    { s with segs := seg :: s.segs }

theorem foldl_push (s : ArrivalSchedule ℝ) : stages.foldl push s =
    { rest s.endT s.tailRate s.endCum stages with
      segs   := s.segs ++ (rest s.endT s.tailRate s.endCum stages).segs
      cursor := s.cursor } := by
  induction stages generalizing s
  case nil => simp [rest]
  case cons stage stages ih =>
    rw [List.foldl_cons, ih]
    simp [push, rest]

theorem cursor_rest : (rest t₀ r₀ cum₀ stages).cursor = 0 := by
  induction stages generalizing t₀ r₀ cum₀
  case nil                  => rfl
  case cons stage stages ih => exact ih

theorem new_eq : new stages = rest 0 0 0 stages := by
  rw [new, foldl_push, List.nil_append]
  exact congrArg (fun n => { rest 0 0 0 stages with cursor := n }) cursor_rest.symm

theorem timeAt_snd (s : ArrivalSchedule ℝ) : (s.timeAt Real.sqrt m).2 =
    s.answer Real.sqrt m ((s.segs.drop s.cursor).find? (·.reaches m)) := by
  rw [List.find?_eq_getElem?_findIdx, List.getElem?_drop]
  rfl

-- What a segment in front does to an answer.
theorem timeAt_cons {s : ArrivalSchedule ℝ} (hs : s.cursor = 0) (seg : Seg ℝ) :
    (timeAt Real.sqrt { s with segs := seg :: s.segs } m).2 =
      if seg.reaches m then some (seg.timeAt Real.sqrt m) else (timeAt Real.sqrt s m).2 := by
  simp only [timeAt_snd, hs, List.drop_zero, List.find?_cons]
  cases seg.reaches m <;> rfl

theorem areaFrom_zero : areaFrom r₀ stages 0 = 0 := by
  cases stages
  case nil => exact mul_zero _
  case cons stage stages => rw [areaFrom, if_pos (Nat.cast_nonneg _), areaWithin_zero]

theorem areaFrom_after (h : stage.durationSeconds.val ≤ τ) : areaFrom r₀ (stage :: stages) τ =
    stageArea r₀ stage + areaFrom stage.target.val stages (τ - stage.durationSeconds.val) := by
  rw [areaFrom]
  split_ifs with hle
  case neg => rfl
  case pos => rw [hle.antisymm h, areaWithin_duration, sub_self, areaFrom_zero, add_zero]

-- What is left of the area is reached where the schedule says.
theorem rest_isFirst (hr : 0 ≤ r₀) (hm : cum₀ < m) :
    IsFirst (fun t => areaFrom r₀ stages (t - t₀)) t₀ (m - cum₀)
      (timeAt Real.sqrt (rest t₀ r₀ cum₀ stages) m).2 := by
  induction stages generalizing t₀ r₀ cum₀
  case nil =>
    have hδ : 0 < m - cum₀ := sub_pos.mpr hm
    have ha : (timeAt Real.sqrt (rest t₀ r₀ cum₀ []) m).2 =
        if 0 < r₀ then some (t₀ + (m - cum₀) / r₀) else none := by
      rw [timeAt_snd]
      simp only [rest, List.drop_zero, List.find?_nil, answer, max_eq_left hδ.le]
    rw [ha]
    split_ifs with hpos
    case pos =>
      refine ⟨?_, ?_, fun s hs hlt => ?_⟩
      case refine_1 => linarith [div_pos hδ hpos]
      case refine_2 =>
        simp only [areaFrom, add_sub_cancel_left]
        exact mul_div_cancel₀ _ hpos.ne'
      case refine_3 =>
        have hs : s - t₀ < (m - cum₀) / r₀ := by linarith
        simpa only [areaFrom, mul_comm r₀] using (lt_div_iff₀ hpos).mp hs
    case neg =>
      intro s hs
      have h0 : r₀ = 0 := le_antisymm (not_lt.mp hpos) hr
      simpa [areaFrom, h0] using hδ
  case cons stage stages ih =>
    have hd : (0 : ℝ) ≤ stage.durationSeconds.val := Nat.cast_nonneg _
    have hq : (0 : ℝ) ≤ stage.target.val := Nat.cast_nonneg _
    -- The area up to a time in the stage, and up to one after it.
    have hin (s : ℝ) (h : s - t₀ ≤ stage.durationSeconds.val) :
        areaFrom r₀ (stage :: stages) (s - t₀) = areaWithin r₀ stage (s - t₀) := by
      rw [areaFrom, if_pos h]
    rw [rest, timeAt_cons cursor_rest]
    split_ifs with hreach
    case pos =>
      obtain ⟨τ, hτ, hτ0, hτd, ha⟩ := seg_timeAt hr hm hreach
      have harea := (seg_reaches.1 hreach).1
      rw [hτ]
      refine ⟨by linarith, ?_, fun s hs hlt => ?_⟩
      case refine_1 =>
        change areaFrom r₀ (stage :: stages) (t₀ + τ - t₀) = m - cum₀
        rw [hin _ (by linarith), add_sub_cancel_left, ha]
      case refine_2 =>
        change areaFrom r₀ (stage :: stages) (s - t₀) < m - cum₀
        rw [hin s (by linarith), ← ha]
        exact areaWithin_strict hr harea (by linarith) (by linarith) hτd
    case neg =>
      have harea₀ : 0 ≤ stageArea r₀ stage := mul_nonneg (by linarith) hd
      have hlt : cum₀ + stageArea r₀ stage < m := by
        by_contra hge
        obtain h0 | hpos := harea₀.eq_or_lt
        case inl => linarith
        case inr => exact hreach (seg_reaches.2 ⟨hpos, not_lt.mp hge⟩)
      have hdur : (Stage.seg t₀ r₀ cum₀ stage).dur = stage.durationSeconds.val := rfl
      rw [hdur, seg_area]
      refine (ih hq hlt).extend (c := stageArea r₀ stage) (le_add_of_nonneg_right hd)
        (fun s hs => ?_) (fun s hs hlt' => ?_) (by ring)
      case refine_1 =>
        rw [areaFrom_after (by linarith), sub_sub]
      case refine_2 =>
        change areaFrom r₀ (stage :: stages) (s - t₀) < m - cum₀
        have hmono := areaWithin_mono hr (sub_nonneg.mpr hs) (by linarith) le_rfl
        rw [areaWithin_duration] at hmono
        rw [hin s (by linarith)]
        linarith

-- The answer of a schedule that has not been asked before.
noncomputable def fresh (stages : List Stage) (m : ℝ) : Option ℝ :=
  (timeAt Real.sqrt (new stages) m).2

theorem fresh_isFirst (hm : 0 < m) : IsFirst (cumulative stages) 0 m (fresh stages m) := by
  have hf : IsFirst (fun t => areaFrom 0 stages (t - 0)) 0 (m - 0)
      (timeAt Real.sqrt (rest 0 0 0 stages) m).2 := rest_isFirst le_rfl hm
  simp only [sub_zero] at hf
  rw [fresh, new_eq]
  exact hf.congr fun t ht => cumulative_eq ht

-- The segments that have been left behind reach nothing that is still to be asked for.
theorem reaches_mono {seg : Seg ℝ} {m' : ℝ} (h : m ≤ m') (hr : seg.reaches m' = true) :
    seg.reaches m = true := by
  simp only [Seg.reaches, Bool.and_eq_true, decide_eq_true_eq] at hr ⊢
  exact ⟨hr.1, h.trans hr.2⟩

-- A schedule that has moved on from the one it was made as.
structure Behind (stages : List Stage) (m : ℝ) (s : ArrivalSchedule ℝ) : Prop where
  frame : s = { new stages with cursor := s.cursor }
  left  : ∀ seg ∈ s.segs.take s.cursor, seg.reaches m = false

theorem Behind.answer {s : ArrivalSchedule ℝ} {m' : ℝ} (h : Behind stages m s) (hm : m ≤ m') :
    (timeAt Real.sqrt s m').2 = fresh stages m' := by
  have hcursor : (new stages : ArrivalSchedule ℝ).cursor = 0 := new_eq ▸ cursor_rest
  have hleft : (s.segs.take s.cursor).find? (·.reaches m') = none := by
    refine List.find?_eq_none.mpr fun seg hseg hr => ?_
    exact absurd (h.left seg hseg) (by simp [reaches_mono hm hr])
  have hfind : (s.segs.drop s.cursor).find? (·.reaches m') = s.segs.find? (·.reaches m') := by
    conv_rhs => rw [← List.take_append_drop s.cursor s.segs]
    rw [List.find?_append, hleft, Option.none_or]
  rw [fresh, timeAt_snd, timeAt_snd, hcursor, List.drop_zero, hfind, h.frame]
  rfl

theorem Behind.seek {s : ArrivalSchedule ℝ} {m' : ℝ} (h : Behind stages m s) (hm : m ≤ m') :
    Behind stages m' (timeAt Real.sqrt s m').1 := by
  refine ⟨?_, fun seg hseg => ?_⟩
  case refine_1 =>
    rw [timeAt, ArrivalSchedule.seek, h.frame]
  case refine_2 =>
    simp only [timeAt, ArrivalSchedule.seek, List.take_add, List.mem_append] at hseg
    obtain hl | hr := hseg
    case inl =>
      by_contra hr
      exact absurd (h.left seg hl) (by simp [reaches_mono hm (Bool.not_eq_false _ ▸ hr)])
    case inr =>
      obtain ⟨i, hi, rfl⟩ := List.mem_take_iff_getElem.mp hr
      exact Bool.not_eq_true _ ▸ List.not_of_lt_findIdx (lt_of_lt_of_le hi (Nat.min_le_left ..))

theorem answers_eq {s : ArrivalSchedule ℝ} {ms : List ℝ} (h : Behind stages m s)
    (hs : (m :: ms).Pairwise (· ≤ ·)) : answers Real.sqrt s ms = ms.map (fresh stages) := by
  induction ms generalizing m s
  case nil => rfl
  case cons m' ms ih =>
    have hm : m ≤ m' := List.rel_of_pairwise_cons hs List.mem_cons_self
    rw [answers, List.map_cons, h.answer hm, ih (h.seek hm) hs.of_cons]

theorem new_behind : Behind stages m (new stages) :=
  ⟨rfl, by rw [new_eq, cursor_rest]; simp⟩

theorem answers_new {ms : List ℝ} (h : ms.Pairwise (· ≤ ·)) :
    answers Real.sqrt (new stages) ms = ms.map (fresh stages) := by
  cases ms
  case nil => rfl
  case cons m ms =>
    refine answers_eq (m := m) new_behind (List.pairwise_cons.mpr ⟨fun m' hm => ?_, h⟩)
    cases List.mem_cons.mp hm
    case inl he => exact he.ge
    case inr hm => exact List.rel_of_pairwise_cons h hm

-- The schedule of a curve is the inverse of the arrivals up to a time. The cursor changes nothing
-- for queries that come in their order.
structure Inverts (stages : List Stage) : Prop where
  cursor      : ∀ ms : List ℝ, ms.Pairwise (· ≤ ·) →
    answers Real.sqrt (new stages) ms = ms.map fun m => (timeAt Real.sqrt (new stages) m).2
  least       : ∀ m > 0, ∀ t, (timeAt Real.sqrt (new stages) m).2 = some t ↔
    IsLeast {t | 0 ≤ t ∧ cumulative stages t = m} t
  unreachable : ∀ m > 0, (timeAt Real.sqrt (new stages) m).2 = none ↔
    ∀ t, 0 ≤ t → cumulative stages t ≠ m
  sorted      : ∀ ms : List ℝ, ms.Pairwise (· ≤ ·) → (∀ m ∈ ms, 0 < m) →
    ((answers Real.sqrt (new stages) ms).filterMap id).Pairwise (· ≤ ·)
  count       : ∀ T, 0 ≤ T → ∃ n : ℕ,
    (∀ k : ℕ, (∃ t < T, (timeAt Real.sqrt (new stages) (k + 1 / 2)).2 = some t) ↔ k < n) ∧
      |n - cumulative stages T| ≤ 1 / 2

theorem inverts (stages : List Stage) : Inverts stages where
  cursor _ h      := answers_new h
  least _ hm _    := (fresh_isFirst hm).eq_some_iff
  unreachable _ h := (fresh_isFirst h).eq_none_iff
  sorted ms h hm  := by
    rw [answers_new h, List.filterMap_map, List.pairwise_filterMap]
    refine h.imp_of_mem fun {m m'} hmem hmem' hle t ht t' ht' => ?_
    obtain ⟨s, hs, he⟩ := (fresh_isFirst (hm m hmem)).lower (fresh_isFirst (hm m' hmem')) hle ht'
    exact Option.some.inj (ht.symm.trans he) ▸ hs
  count T hT      := by
    have hmono : MonotoneOn (cumulative stages) (Set.Ici 0) :=
      fun t ht _ _ h => cumulative_mono ht h
    have hT0 : 0 ≤ cumulative stages T := by
      have h0 : cumulative stages 0 ≤ cumulative stages T := cumulative_mono le_rfl hT
      simpa [cumulative] using h0
    exact count_halves (fun k => fresh_isFirst (by positivity)) hmono hT hT0

end ArrivalSchedule

end Engine
