import Handicap.Engine.Closed
import Mathlib.Algebra.Order.Field.Rat
import Mathlib.Tactic.Linarith
import Mathlib.Tactic.NormNum
import Mathlib.Tactic.Ring

open Store

-- How the number of spawned VUs follows the ramp.
namespace Engine

variable {plan : ClosedPlan} {s : Closed} {e : ClosedEvent} {events : List ClosedEvent} {k n : ℕ}

-- What the loop that spawns the VUs sees.
def ClosedEvent.isDriver : ClosedEvent → Bool
  | .turn _ | .cancel => true
  | _                 => false

-- The first turns of a loop that follows its ticks exactly, one for each second.
def ticks (n : ℕ) : List ClosedEvent :=
  (List.range n).map fun i => .turn (i * 1000000000)

theorem ticks_succ : ticks (n + 1) = ticks n ++ [.turn (n * 1000000000)] := by
  simp [ticks, List.range_succ]

theorem filter_ticks (n : ℕ) : (ticks n).filter ClosedEvent.isDriver = ticks n := by
  refine List.filter_eq_self.mpr fun e he => ?_
  obtain ⟨i, -, rfl⟩ := List.mem_map.mp he
  rfl

namespace Closed

-- The loop after a number of ticks.
structure Ramped (plan : ClosedPlan) (n : ℕ) (s : Closed) : Prop where
  spawned   : s.spawned = min plan.vus.val (n * plan.perTick)
  running   : s.runCancelled = false
  following : s.spawned < plan.vus.val → s.spawning = true ∧ s.nextSpawn = n * 1000000000

theorem Ramped.congr {s' : Closed} (h : Ramped plan n s) (hs : s'.spawned = s.spawned)
    (hr : s'.runCancelled = s.runCancelled) (hp : s'.spawning = s.spawning)
    (hn : s'.nextSpawn = s.nextSpawn) : Ramped plan n s' :=
  ⟨hs ▸ h.spawned, hr ▸ h.running, hs ▸ hp ▸ hn ▸ h.following⟩

-- The steps of the VUs are nothing to the loop.
theorem Ramped.vu (h : Ramped plan n s) (he : e.isDriver = false) :
    Ramped plan n (s.step plan e) := by
  cases e
  case turn   => simp [ClosedEvent.isDriver] at he
  case cancel => simp [ClosedEvent.isDriver] at he
  case built index ok =>
    simp only [step]
    split_ifs <;> exact h.congr rfl rfl rfl rfl
  case vu index now =>
    simp only [step, vuStep]
    split <;> try split_ifs
    all_goals exact h.congr rfl rfl rfl rfl
  case iterated index result =>
    simp only [step]
    split_ifs
    case neg => exact h
    case pos =>
      unfold iterated
      split <;> try split_ifs
      all_goals exact h.congr rfl rfl rfl rfl
  case paced index outcome =>
    simp only [step]
    split_ifs
    case neg => exact h
    case pos =>
      unfold paced
      split <;> exact h.congr rfl rfl rfl rfl

theorem Ramped.tick (h : Ramped plan n s) :
    Ramped plan (n + 1) (s.step plan (.turn (n * 1000000000))) := by
  have hmul : (n + 1) * plan.perTick = n * plan.perTick + plan.perTick := Nat.succ_mul ..
  by_cases hv : s.spawned < plan.vus.val
  case pos =>
    obtain ⟨hsp, hnext⟩ := h.following hv
    have hspawned := h.spawned
    have hs : s.step plan (.turn (n * 1000000000)) =
        s.spawn (min plan.perTick (plan.vus.val - s.spawned)) := by
      simp [step, turn, hsp, h.running, hnext, hv]
    rw [hs]
    refine ⟨?_, h.running, fun _ => ⟨hsp, ?_⟩⟩
    case refine_1 =>
      simp only [spawn]
      omega
    case refine_2 =>
      simp only [spawn]
      omega
  case neg =>
    have hspawned := h.spawned
    have hs : (s.step plan (.turn (n * 1000000000))).spawned = s.spawned ∧
        (s.step plan (.turn (n * 1000000000))).runCancelled = s.runCancelled := by
      simp only [step, turn, not_lt.mp hv, or_true, if_true]
      split_ifs <;> exact ⟨rfl, rfl⟩
    exact ⟨by omega, hs.2 ▸ h.running, fun hlt => absurd (hs.1 ▸ hlt) hv⟩

-- Whatever the VUs do between the ticks.
theorem run_ramped (h : events.filter ClosedEvent.isDriver = ticks n) :
    Ramped plan n (run plan events) := by
  induction events using List.reverseRecOn generalizing n
  case nil =>
    cases n
    case zero   => exact ⟨by simp [run, new], rfl, fun _ => ⟨rfl, rfl⟩⟩
    case succ n => simp [ticks_succ] at h
  case append_singleton events e ih =>
    rw [run, Trace.run_concat]
    cases he : e.isDriver
    case false => exact (ih (by simpa [he] using h)).vu he
    case true =>
      cases n
      case zero   => simp [ticks, he] at h
      case succ n =>
        have hcat : events.filter ClosedEvent.isDriver ++ [e] =
            ticks n ++ [.turn (n * 1000000000)] := by
          simpa [he, ticks_succ] using h
        obtain ⟨hn, rfl⟩ := List.append_inj' hcat rfl |>.imp_right List.singleton_injective.eq_iff.mp
        exact (ih hn).tick

end Closed

-- A batch is what a second of the ramp asks for, rounded up.
theorem ClosedPlan.perTick_spec (hv : 1 ≤ plan.vus.val) (hr : 1 ≤ plan.rampUp.val) :
    plan.vus.val ≤ plan.perTick * plan.rampUp.val ∧
      (plan.perTick - 1) * plan.rampUp.val < plan.vus.val ∧ 1 ≤ plan.perTick := by
  unfold perTick
  generalize plan.vus.val = v at *
  generalize plan.rampUp.val = r at *
  obtain ⟨v, rfl⟩ : ∃ v', v = v' + 1 := ⟨_, (Nat.sub_add_cancel hv).symm⟩
  have hd : (v + 1 + r - 1) / r = v / r + 1 := by
    rw [Nat.add_right_comm, Nat.add_sub_cancel, Nat.add_div_right _ hr]
  have hmod := Nat.div_add_mod v r
  have hlt := Nat.mod_lt v hr
  rw [if_neg (by omega), hd, max_eq_left (Nat.le_add_left ..), Nat.add_sub_cancel, Nat.succ_mul,
    Nat.mul_comm (v / r)]
  exact ⟨by omega, by omega, Nat.le_add_left ..⟩

-- The ramp is ahead of the line the most when the last full batch has been spawned. Both are taken
-- times the length of the ramp.
theorem ahead_iff {v r p : ℕ} (hv : v ≤ p * r) (hp : (p - 1) * r < v) (hp1 : 1 ≤ p) :
    (∀ j, 1 ≤ j → j ≤ r → min v (j * p) * r < p * r + v * j) ↔ v / p * (p * r - v) < p * r := by
  have hdiv : p * (v / p) + v % p = v := Nat.div_add_mod v p
  have hmod : v % p * r ≤ (p - 1) * r :=
    Nat.mul_le_mul_right r (Nat.le_sub_one_of_lt (Nat.mod_lt v hp1))
  have hdiv_le (j : ℕ) (h : j * p ≤ v) : j ≤ v / p := (Nat.le_div_iff_mul_le hp1).mpr h
  generalize v % p = m at hdiv hmod
  generalize v / p = q at hdiv hdiv_le
  obtain ⟨d, hd⟩ := Nat.exists_eq_add_of_le hv
  have hsub : p * r - v = d := by omega
  -- What the first full batches are ahead of the line.
  have hfull (j : ℕ) : j * p * r = v * j + j * d := by
    rw [Nat.mul_assoc, hd]
    ring
  rw [hsub]
  constructor
  case mp =>
    intro h
    have hr : 1 ≤ r := by
      by_contra hr
      obtain rfl : r = 0 := by omega
      omega
    have hpv : p ≤ v := by
      have hle : (p - 1) * 1 ≤ (p - 1) * r := Nat.mul_le_mul_left _ hr
      omega
    have hq : 1 ≤ q := hdiv_le 1 (by omega)
    have hqr : q ≤ r := by
      refine Nat.le_of_mul_le_mul_left ?_ hp1
      omega
    have hlt := h q hq hqr
    rw [min_eq_right (by rw [Nat.mul_comm]; omega), hfull q] at hlt
    omega
  case mpr =>
    intro h j _ _
    by_cases hj : j * p ≤ v
    case pos =>
      have hle : j * d ≤ q * d := Nat.mul_le_mul_right d (hdiv_le j hj)
      rw [min_eq_right hj, hfull j]
      omega
    case neg =>
      -- All VUs have been spawned by the batch after the last full one.
      have hqj : q + 1 ≤ j := by
        by_contra hlt
        have hle : j * p ≤ q * p := Nat.mul_le_mul_right p (by omega)
        rw [Nat.mul_comm q] at hle
        omega
      have hvj : v * (q + 1) ≤ v * j := Nat.mul_le_mul_left v hqj
      have hvr : v * r = v * q + q * d + m * r := by
        rw [← hfull q, Nat.mul_comm q, ← Nat.add_mul, hdiv]
      rw [min_eq_left (by omega), hvr]
      rw [Nat.mul_succ] at hvj
      omega

-- The VUs are spawned in a line: all of them by the end of the ramp, and never a batch off before.
structure LinearRamp (plan : ClosedPlan) : Prop where
  complete : ∀ events, events.filter ClosedEvent.isDriver = ticks plan.rampUp.val →
    (Closed.run plan events).spawned = plan.vus.val
  close    : ∀ k < plan.rampUp.val, ∀ events,
    events.filter ClosedEvent.isDriver = ticks (k + 1) →
      |((Closed.run plan events).spawned : ℚ) - plan.vus.val * (k + 1) / plan.rampUp.val| <
        plan.perTick

theorem linearRamp_iff (hv : 1 ≤ plan.vus.val) (hr : 1 ≤ plan.rampUp.val) : LinearRamp plan ↔
    plan.vus.val / plan.perTick * (plan.perTick * plan.rampUp.val - plan.vus.val) <
      plan.perTick * plan.rampUp.val := by
  obtain ⟨hle, hlt, hp⟩ := plan.perTick_spec hv hr
  rw [← ahead_iff hle hlt hp]
  -- The distance to the line, without fractions.
  have hdist (n j : ℕ) (h : plan.vus.val * j ≤ n * plan.rampUp.val) :
      |(n : ℚ) - plan.vus.val * j / plan.rampUp.val| < plan.perTick ↔
        n * plan.rampUp.val < plan.perTick * plan.rampUp.val + plan.vus.val * j := by
    have hr0 : (0 : ℚ) < plan.rampUp.val := Nat.cast_pos.mpr hr
    have hge : (plan.vus.val * j / plan.rampUp.val : ℚ) ≤ n := by
      rw [div_le_iff₀ hr0]
      exact_mod_cast h
    rw [abs_of_nonneg (sub_nonneg.mpr hge), sub_lt_iff_lt_add, ← sub_lt_iff_lt_add', lt_div_iff₀ hr0,
      sub_mul, sub_lt_iff_lt_add']
    exact_mod_cast Iff.rfl
  have hahead (j : ℕ) (hj : j ≤ plan.rampUp.val) :
      plan.vus.val * j ≤ min plan.vus.val (j * plan.perTick) * plan.rampUp.val := by
    cases le_total plan.vus.val (j * plan.perTick)
    case inl h =>
      rw [min_eq_left h]
      exact Nat.mul_le_mul_left _ hj
    case inr h =>
      rw [min_eq_right h]
      calc plan.vus.val * j ≤ plan.perTick * plan.rampUp.val * j := Nat.mul_le_mul_right j hle
        _ = j * plan.perTick * plan.rampUp.val := by ring
  constructor
  case mp =>
    intro h j hj hjr
    obtain ⟨k, rfl⟩ : ∃ k, j = k + 1 := ⟨_, (Nat.sub_add_cancel hj).symm⟩
    have hc := h.close k hjr (ticks (k + 1)) (filter_ticks _)
    rw [(Closed.run_ramped (filter_ticks _)).spawned] at hc
    exact (hdist _ _ (hahead _ hjr)).mp (by exact_mod_cast hc)
  case mpr =>
    intro h
    refine ⟨fun events he => ?_, fun k hk events he => ?_⟩
    case refine_1 =>
      rw [(Closed.run_ramped he).spawned]
      exact min_eq_left (by rwa [Nat.mul_comm])
    case refine_2 =>
      rw [(Closed.run_ramped he).spawned]
      exact_mod_cast (hdist _ _ (hahead _ hk)).mpr (h (k + 1) (Nat.le_add_left ..) hk)

-- A ramp of ten seconds for two VUs, which is over after two of them.
def shortRamp : ClosedPlan where
  vus      := 2
  rampUp   := 10
  duration := 60000000000
  vuOffset := 0
  thinks   := false

theorem linearRamp_counterexample : ¬LinearRamp shortRamp := by
  intro h
  have hc := h.close 1 (by decide) (ticks 2) (filter_ticks 2)
  have hs : (Closed.run shortRamp (ticks 2)).spawned = 2 := by decide
  have hp : shortRamp.perTick = 1 := by decide
  rw [hs, hp] at hc
  norm_num [shortRamp] at hc

-- Batches of three, three and two.
theorem linearRamp_iff_eight : LinearRamp { shortRamp with vus := 8, rampUp := 3 } :=
  (@linearRamp_iff { shortRamp with vus := 8, rampUp := 3 } (by decide) (by decide)).mpr (by decide)

end Engine
