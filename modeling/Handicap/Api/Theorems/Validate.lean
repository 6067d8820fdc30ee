import Handicap.Api.Validate

open Guard Store

namespace Api

variable {state : AppState} {p : Profile} {metas : List DatasetMeta}

-- What a profile is known to ask for once it has been accepted, by the kind of its load.
inductive Load (p : Profile) : Prop
  | vuCurve :
    p.isVuCurve → p.targetRps = none → ¬p.hasStages → 1 ≤ p.vuCurveMax.val → Load p
  | fixed {m rps : U32} :
    ¬p.isVuCurve → ¬p.hasStages → p.maxInFlight = some m → p.targetRps = some rps →
    1 ≤ m.val → 1 ≤ rps.val →
    (∀ w, p.workerCount = some w → 1 ≤ w.val ∧ w.val ≤ m.val ∧ w.val ≤ rps.val) → Load p
  | rateCurve {m : U32} :
    ¬p.isVuCurve → p.hasStages → p.maxInFlight = some m → p.targetRps = none →
    1 ≤ m.val → 1 ≤ p.ratePeak.val →
    (∀ w, p.workerCount = some w → 1 ≤ w.val ∧ w.val ≤ m.val) → Load p
  | closed :
    ¬p.isVuCurve → ¬p.isOpenLoop → 1 ≤ p.vus.val → Load p

@[simp]
theorem refuseWith_eq_ok {bad : Prop} [Decidable bad] {message : String} {u : Unit} :
    refuseWith bad message = .ok u ↔ ¬bad :=
  refuse_eq_ok

-- A positive target among the stages makes their maximum positive.
theorem maxTarget_pos {stages : Option (List Stage)} (h : (stages.getD []).any (0 < ·.target)) :
    ∃ t, Profile.maxTarget stages = some t ∧ 1 ≤ t.val := by
  obtain ⟨s, hs, hpos⟩ := List.any_eq_true.mp h
  have hmem : s.target ∈ (stages.getD []).map Stage.target := List.mem_map_of_mem hs
  obtain ⟨t, ht⟩ := Option.isSome_iff_exists.mp (List.isSome_max?_of_mem hmem)
  have hle : s.target ≤ t := (List.max?_eq_some_iff.mp ht).right _ hmem
  exact ⟨t, ht, Nat.lt_of_lt_of_le (by simpa using hpos) hle⟩

theorem checkLoad_of_validate (h : validateRunConfig state p = .ok metas) :
    checkLoad p = .ok () := by
  simp only [validateRunConfig, seq_eq_ok] at h
  exact h.right.right.left

theorem workerCount_pos_of_validate (h : validateRunConfig state p = .ok metas) :
    ∀ w, p.workerCount = some w → 1 ≤ w.val := by
  intro w hw
  simp only [validateRunConfig, checkWorkerCount, hw, seq_eq_ok, refuseWith_eq_ok, not_or] at h
  exact Nat.pos_of_ne_zero (Fin.val_ne_zero_iff.mpr h.right.left.left.left)

theorem load_of_checkVuCurve (hc : p.isVuCurve) (h : checkVuCurve p = .ok ()) : Load p := by
  simp only [checkVuCurve, seq_eq_ok, refuseWith_eq_ok, not_not] at h
  obtain ⟨hr, -, hs, -, -, -, -, hpos⟩ := h
  obtain ⟨t, ht, hpos⟩ := maxTarget_pos hpos
  exact .vuCurve hc (by simpa using hr) hs (by simpa [Profile.vuCurveMax, ht] using hpos)

theorem maxInFlight_of_check (h : checkMaxInFlight p = .ok ()) :
    ∃ m, p.maxInFlight = some m ∧ 1 ≤ m.val := by
  rw [checkMaxInFlight] at h
  split at h
  case h_1 => cases h
  case h_2 m hm =>
    rw [refuseWith_eq_ok, not_or] at h
    exact ⟨m, hm, Nat.pos_of_ne_zero (Fin.val_ne_zero_iff.mpr h.left)⟩

theorem workerCount_le_of_check {m : U32} (h : checkFanOut p = .ok ()) (hm : p.maxInFlight = some m)
    (hpos : 1 ≤ m.val) :
    ∀ w, p.workerCount = some w → w.val ≤ m.val ∧
      (¬p.hasStages → ∀ rps, p.targetRps = some rps → 1 ≤ rps.val → w.val ≤ rps.val) := by
  intro w hw
  simp only [checkFanOut, hw, hm, Option.getD_some] at h
  split at h
  case isFalse hlt =>
    have hle : w.val ≤ 1 := not_lt.mp hlt
    exact ⟨hle.trans hpos, fun _ _ _ hrps => hle.trans hrps⟩
  case isTrue hlt =>
    rw [seq_eq_ok, refuseWith_eq_ok, not_lt] at h
    refine ⟨h.left, fun hs rps hrps _ => ?_⟩
    have hr := h.right
    rw [if_pos hs, refuseWith_eq_ok, hrps, Option.getD_some, not_lt] at hr
    exact hr

theorem load_of_checkOpenLoop (hc : ¬p.isVuCurve) (h : checkOpenLoop p = .ok ())
    (hone : ∀ w, p.workerCount = some w → 1 ≤ w.val) : Load p := by
  simp only [checkOpenLoop, seq_eq_ok] at h
  obtain ⟨hm, -, -, hrate, -, hfan⟩ := h
  obtain ⟨m, hm, hpos⟩ := maxInFlight_of_check hm
  have hw := workerCount_le_of_check hfan hm hpos
  rw [checkRates] at hrate
  split at hrate
  case isTrue hs =>
    simp only [checkRateCurve, seq_eq_ok, refuseWith_eq_ok, not_not] at hrate
    obtain ⟨hr, -, -, hpos'⟩ := hrate
    obtain ⟨t, ht, htpos⟩ := maxTarget_pos hpos'
    have hr : p.targetRps = none := by simpa using hr
    exact .rateCurve hc hs hm hr hpos (by simpa [Profile.ratePeak, hr, ht] using htpos)
      fun w h => ⟨hone w h, (hw w h).left⟩
  case isFalse hs =>
    simp only [checkFixedRate, seq_eq_ok, refuseWith_eq_ok, not_or] at hrate
    obtain ⟨⟨h0, -⟩, -⟩ := hrate
    cases hr : p.targetRps
    case none => simp [hr] at h0
    case some rps =>
      rw [hr, Option.getD_some] at h0
      have hrps : 1 ≤ rps.val := Nat.pos_of_ne_zero (Fin.val_ne_zero_iff.mpr h0)
      exact .fixed hc hs hm hr hpos hrps fun w h =>
        ⟨hone w h, (hw w h).left, (hw w h).right hs rps hr hrps⟩

theorem load_of_validate (h : validateRunConfig state p = .ok metas) : Load p := by
  have hone := workerCount_pos_of_validate h
  have h := checkLoad_of_validate h
  rw [checkLoad] at h
  split_ifs at h with hc ho
  case pos => exact load_of_checkVuCurve hc h
  case pos => exact load_of_checkOpenLoop hc h hone
  case neg =>
    rw [refuseWith_eq_ok, not_or] at h
    exact .closed hc ho (Nat.pos_of_ne_zero (Fin.val_ne_zero_iff.mpr h.left))

end Api
