import Handicap.Engine.ArrivalLoop
import Handicap.Engine.Theorems.Arrivals

open Store (Stage U32)

-- When the slots of the arrival loop are enough.
namespace Engine

namespace ArrivalLoop

variable {K : Type*} [Field K] [LinearOrder K] {slots : ℕ} {deadline : K}

-- Attempts that are apart by the number of slots: the first of them has ended when the second is
-- due.
def Apart (slots : ℕ) (attempts : List (Option K × K)) : Prop :=
  ∀ i j due took due' took', attempts[i]? = some (some due, took) →
    attempts[j]? = some (some due', took') → i + slots ≤ j → due + took ≤ due'

-- The ends of the attempts that there have been, from the last one on.
def IsPast (attempts : List (Option K × K)) (k : ℕ) (past : List K) : Prop :=
  ∀ (n : ℕ) finish, past[n]? = some finish → ∃ i due took,
    i + n + 1 = k ∧ attempts[i]? = some (some due, took) ∧ finish = due + took

theorem mem_drop_of_sublist {α : Type*} {l p : List α} {n : ℕ} (h : l.Sublist p)
    (hn : n < l.length) : ∃ a ∈ l, a ∈ p.drop n := by
  rw [← List.take_append_drop n p] at h
  obtain ⟨l₁, l₂, rfl, h₁, h₂⟩ := List.sublist_append_iff.mp h
  have hlen : l₁.length ≤ n := h₁.length_le.trans (List.length_take_le n p)
  rw [List.length_append] at hn
  have hpos : 0 < l₂.length := by omega
  obtain ⟨a, l₂, rfl⟩ := List.exists_cons_of_length_pos hpos
  exact ⟨a, by simp, h₂.subset List.mem_cons_self⟩

-- By induction on the attempts that are left. What runs is a part of what there has been. If it
-- holds all slots, one of it is apart from the attempt, and has ended.
theorem run_dropped {all : List (Option K × K)} (hs : 1 ≤ slots) (ha : Apart slots all)
    {attempts : List (Option K × K)} {k : ℕ} (hk : attempts = all.drop k) {past : List K}
    (hp : IsPast all k past) {s : ArrivalLoop K} (hr : s.running.Sublist past) :
    (run slots deadline attempts s).dropped = s.dropped := by
  induction attempts generalizing k past s
  case nil => rfl
  case cons a attempts ih =>
    obtain ⟨due, took⟩ := a
    have hget : all[k]? = some (due, took) := by
      rw [← List.head?_drop, ← hk]
      rfl
    have hrest : attempts = all.drop (k + 1) := by
      rw [← List.tail_drop, ← hk]
      rfl
    cases due
    case none => rfl
    case some due =>
      rw [run]
      split_ifs
      case neg => rfl
      case pos =>
        have hsub : (s.running.filter (due < ·)).Sublist past := List.filter_sublist.trans hr
        have hlt : (s.running.filter (due < ·)).length < slots := by
          by_contra hfull
          have ⟨finish, hmem, hdrop⟩ :=
            mem_drop_of_sublist hsub (Nat.lt_of_lt_of_le (Nat.sub_lt hs Nat.one_pos) (not_lt.mp hfull))
          obtain ⟨n, hn⟩ := List.mem_iff_getElem?.mp hdrop
          rw [List.getElem?_drop] at hn
          have ⟨i, due', took', hi, hget', he⟩ := hp _ _ hn
          have hle : due' + took' ≤ due := ha i k due' took' due took hget' hget (by omega)
          have hgt := of_decide_eq_true (List.mem_filter.mp hmem).2
          exact absurd hgt (not_lt.mpr (he ▸ hle))
        have hnext : IsPast all (k + 1) ((due + took) :: past) := by
          intro n finish hn
          cases n
          case zero => exact ⟨k, due, took, rfl, hget, (Option.some.inj hn).symm⟩
          case succ n =>
            have ⟨i, due', took', hi, h⟩ := hp n finish hn
            exact ⟨i, due', took', by omega, h⟩
        rw [attempt, if_pos hlt]
        exact ih hrest hnext (hsub.cons_cons _)

theorem dropped_eq_zero {attempts : List (Option K × K)} (hs : 1 ≤ slots)
    (ha : Apart slots attempts) : (run slots deadline attempts ⟨[], 0⟩).dropped = 0 :=
  run_dropped hs ha List.drop_zero.symm (fun n finish h => by simp at h) (List.Sublist.refl [])

-- Where nothing ends before the last attempt, there are no slots for the attempts beyond them.
theorem run_crowded {attempts : List (Option K × K)} (finish : K) {s : ArrivalLoop K}
    (hd : ∀ a ∈ attempts, ∃ due, a.1 = some due ∧ due < deadline ∧ due < finish ∧ finish ≤ due + a.2)
    (hr : ∀ e ∈ s.running, finish ≤ e) (hs : s.running.length ≤ slots) :
    (run slots deadline attempts s).dropped =
      s.dropped + (s.running.length + attempts.length - slots) := by
  induction attempts generalizing s
  case nil => simp [run, hs]
  case cons a attempts ih =>
    obtain ⟨due, took⟩ := a
    have ⟨hd₁, hd₂⟩ := List.forall_mem_cons.mp hd
    obtain ⟨due, rfl, hdead, hlt, hle⟩ := hd₁
    have hall : s.running.filter (due < ·) = s.running :=
      List.filter_eq_self.mpr fun e he => decide_eq_true (hlt.trans_le (hr e he))
    rw [run, if_pos hdead, attempt, hall]
    split_ifs with hfree
    case pos =>
      have hr' : ∀ e ∈ (due + took) :: s.running, finish ≤ e := List.forall_mem_cons.mpr ⟨hle, hr⟩
      have hdropped := @ih ⟨(due + took) :: s.running, s.dropped⟩ hd₂ hr' hfree
      rw [hdropped, List.length_cons, List.length_cons, Nat.add_right_comm, Nat.add_assoc]
    case neg =>
      have hdropped := @ih ⟨s.running, s.dropped + 1⟩ hd₂ hr hs
      rw [hdropped, List.length_cons]
      change s.dropped + 1 + (s.running.length + attempts.length - slots) = _
      omega

end ArrivalLoop

-- The time between two attempts at a fixed rate, in seconds.
noncomputable def gap (targetRps : U32) : ℝ :=
  (OpenLoopPlan.fixedInterval ⟨none, some targetRps, 0, 0, none⟩ : ℕ) / (1000000000 : ℕ)

theorem gap_eq {targetRps : U32} (h : 1 ≤ targetRps.val) (h' : targetRps.val ≤ 1000000) :
    gap targetRps = (1000000000 / targetRps.val : ℕ) / 1000000000 := by
  have hpos : 1 ≤ 1000000000 / targetRps.val :=
    (Nat.le_div_iff_mul_le h).mpr (by omega)
  simp only [gap, OpenLoopPlan.fixedInterval, Option.getD_some, max_eq_left h, max_eq_left hpos,
    Nat.cast_ofNat]

theorem fixed_due {targetRps : U32} {n i : ℕ} {due : ℝ}
    (h : ((ArrivalRate.fixed targetRps).dues Real.sqrt n)[i]? = some (some due)) :
    due = i * gap targetRps := by
  simp only [ArrivalRate.dues, List.getElem?_map, Option.map_eq_some_iff] at h
  obtain ⟨k, hk, hd⟩ := h
  obtain ⟨hi, rfl⟩ := List.getElem?_eq_some_iff.mp hk
  rw [List.getElem_range] at hd
  exact (Option.some.inj hd).symm

theorem curve_due {stages : List Stage} {n i : ℕ} {due : ℝ}
    (h : ((ArrivalRate.curve stages).dues Real.sqrt n)[i]? = some (some due)) :
    0 ≤ due ∧ cumulative stages due = i + 1 / 2 := by
  have hsorted : ((List.range n).map fun k : ℕ => (k : ℝ) + 1 / 2).Pairwise (· ≤ ·) := by
    refine List.pairwise_map.mpr (List.pairwise_lt_range.imp fun hlt => ?_)
    have hle := Nat.cast_le (α := ℝ).mpr hlt.le
    linarith
  simp only [ArrivalRate.dues, Nat.cast_ofNat] at h
  rw [ArrivalSchedule.answers_new hsorted, List.map_map] at h
  simp only [List.getElem?_map, Option.map_eq_some_iff] at h
  obtain ⟨k, hk, hd⟩ := h
  obtain ⟨hi, rfl⟩ := List.getElem?_eq_some_iff.mp hk
  rw [List.getElem_range] at hd
  exact ((ArrivalSchedule.inverts stages).least _ (by positivity) due).mp hd |>.1

-- The rate of a curve is at most the highest of its targets.
theorem rateFrom_le {peak r₀ t₀ t : ℝ} {stages : List Stage} (hr : r₀ ≤ peak) (h : t₀ ≤ t)
    (hp : ∀ stage ∈ stages, (stage.target.val : ℝ) ≤ peak) : rateFrom t t₀ r₀ stages ≤ peak := by
  induction stages generalizing t₀ r₀
  case nil => exact hr
  case cons stage stages ih =>
    have ⟨hstage, hstages⟩ := List.forall_mem_cons.mp hp
    simp only [rateFrom]
    split_ifs with he hd
    case pos => exact hstage
    case neg =>
      have hpos : 0 < t₀ + stage.durationSeconds.val - t₀ := not_le.mp hd
      have hfrac : (t - t₀) / (t₀ + stage.durationSeconds.val - t₀) ≤ 1 :=
        (div_le_one hpos).mpr (by linarith)
      have hfrac₀ : 0 ≤ (t - t₀) / (t₀ + stage.durationSeconds.val - t₀) :=
        div_nonneg (by linarith) hpos.le
      nlinarith
    case neg => exact ih hstage (not_le.mp he).le hstages

theorem cumulative_sub_le {peak t τ : ℝ} {stages : List Stage} (hp₀ : 0 ≤ peak)
    (hp : ∀ stage ∈ stages, (stage.target.val : ℝ) ≤ peak) (h : 0 ≤ t) (h' : t ≤ τ) :
    cumulative stages τ - cumulative stages t ≤ peak * (τ - t) := by
  have hle : ∫ s in t..τ, rateAt stages s ≤ ∫ _ in t..τ, peak :=
    intervalIntegral.integral_mono_on h' (integrable_rateAt h h') intervalIntegrable_const
      fun s hs => rateFrom_le hp₀ (h.trans hs.1) hp
  rw [intervalIntegral.integral_const, smul_eq_mul] at hle
  rw [← cumulative_add h h']
  linarith

-- The rates that a run can have.
def ArrivalRate.Accepted : ArrivalRate → Prop
  | fixed targetRps => 1 ≤ targetRps.val ∧ targetRps.val ≤ 1000000
  | curve stages    => ∀ stage ∈ stages, stage.target.val ≤ 1000000

end Engine
