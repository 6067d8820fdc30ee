import Handicap.Engine.Theorems.ArrivalLoop
import Handicap.Shard.Theorems
import Handicap.Ui.Theorems.SlowRun

open Engine
open Store (F64 Stage ThinkTime U32)

-- What the warnings about the load of an open-loop run promise.
namespace Ui

section

variable {targets : List F64} {peak : ℚ}

theorem targetRpsValid_natCast {n : ℕ} :
    targetRpsValid (.finite n) = if 1 ≤ n ∧ n ≤ 1000000 then some (n : ℚ) else none := by
  have hi : (n : ℚ).isInt = true := by simp [Rat.isInt]
  have h₁ : (1 : ℚ) ≤ n ↔ 1 ≤ n := by exact_mod_cast Iff.rfl
  have h₂ : (n : ℚ) ≤ 1000000 ↔ n ≤ 1000000 := by exact_mod_cast Iff.rfl
  simp only [targetRpsValid, hi, h₁, h₂, true_and]

-- The peak is the highest of the targets that are valid.
theorem peakStageTarget_eq : peakStageTarget targets = (targets.filterMap targetRpsValid).max? := by
  have hfold (peak : Option ℚ) : targets.foldl higherTarget peak =
      (peak.toList ++ targets.filterMap targetRpsValid).max? := by
    induction targets generalizing peak
    case nil => cases peak <;> rfl
    case cons target targets ih =>
      rw [List.foldl_cons, ih, List.filterMap_cons]
      unfold higherTarget
      cases targetRpsValid target
      case none => rfl
      case some n =>
        cases peak
        case none => rfl
        case some peak =>
          have hmax : (if peak < n then some n else some peak) = some (max peak n) := by
            split_ifs with h
            case pos => rw [max_eq_right h.le]
            case neg => rw [max_eq_left (not_lt.mp h)]
          simp only [hmax]
          rfl
  exact hfold none

theorem peak_eq_some (h : peakStageTarget targets = some peak) :
    (∃ target ∈ targets, targetRpsValid target = some peak) ∧
      ∀ target ∈ targets, ∀ n, targetRpsValid target = some n → n ≤ peak := by
  rw [peakStageTarget_eq, List.max?_eq_some_iff] at h
  have ⟨hmem, hle⟩ := h
  refine ⟨List.mem_filterMap.mp hmem, fun target ht n hn => hle n ?_⟩
  exact List.mem_filterMap.mpr ⟨target, ht, hn⟩

end

-- What the form checks for a run, where its drafts are those of the profile.
def openLoopInput (rate : ArrivalRate) (maxInFlight : ℕ) (workers : U32) (httpTimeout : ℕ)
    (scenario : Scenario) : OpenLoopInput :=
  { isOpen             := true
    rateMode           := match rate with | .fixed _ => .fixed | .curve _ => .curve
    targetRps          := .finite (match rate with | .fixed targetRps => targetRps.val | .curve _ => 0)
    maxInFlight        := .finite maxInFlight
    stageTargets       := rate.stages.map fun stage => .finite stage.target.val
    workerCount        := .finite workers.val
    httpTimeoutSeconds := some httpTimeout
    scenario           := some scenario
    poolMode           := false }

-- The times that an iteration can take.
def Takes (httpTimeout : ℕ) (scenario : Scenario) (took : ℚ) : Prop :=
  ∃ (it : Iteration) (rows : List (Table String String)), Timely it ∧ it.client.timeout = httpTimeout ∧
    (it.runIteration scenario rows 0).strand.clock = took

-- The arrival loop of a run whose iterations take the given times.
noncomputable def openLoop (rate : ArrivalRate) (maxInFlight : ℕ) (deadline : ℝ) (tooks : List ℚ) :
    ArrivalLoop ℝ :=
  .run maxInFlight deadline ((rate.dues Real.sqrt tooks.length).zip (tooks.map fun q : ℚ => (q : ℝ)))
    ⟨[], 0⟩

-- The workers of a curve that have nothing to do.
def idleCount (rate : ArrivalRate) (workers : ℕ) : ℕ :=
  (List.range workers).countP fun i =>
    rate.stages.all fun stage => (Shard.shardSplit stage.target.val workers i).2 = 0

-- No warning is wrong at a rate with a number of slots.
structure NoFalsePositives (rate : ArrivalRate) (maxInFlight : ℕ) : Prop where
  longest : ∀ (it : Iteration) (scenario : Scenario) (rows : List (Table String String)) (clock : ℚ),
    Timely it → 0 ≤ it.client.timeout → TimesValid scenario →
      (it.runIteration scenario rows clock).strand.clock ≤ clock +
        iterationTimeUpperBoundSeconds it.client.timeout scenario.steps scenario.defaultThinkTime
  inert : ∀ (scenario : Scenario) (httpTimeout : ℕ) (workers : U32) (threshold : ℚ),
    TimesValid scenario → 1 ≤ httpTimeout → .inertSlots maxInFlight threshold ∈
      openLoopWarnings (openLoopInput rate maxInFlight workers httpTimeout scenario) →
      ∀ (deadline : ℝ) (tooks : List ℚ), (∀ took ∈ tooks, Takes httpTimeout scenario took) →
        (openLoop rate maxInFlight deadline tooks).dropped = 0
  idle : ∀ (scenario : Scenario) (httpTimeout : ℕ) (workers : U32) (peak idle : ℚ),
    .idleWorkers workers.val peak idle ∈
      openLoopWarnings (openLoopInput rate maxInFlight workers httpTimeout scenario) →
      idleCount rate workers.val = idle

-- Whether the slots outlast the time between attempts, which at a fixed rate is whole nanoseconds.
def Spaced (maxInFlight : ℕ) : ArrivalRate → Prop
  | .curve _         => True
  | .fixed targetRps => maxInFlight < targetRps.val ∨
    1000000 * (1000 * maxInFlight / targetRps.val) ≤ maxInFlight * (1000000000 / targetRps.val)

section

variable {rate : ArrivalRate} {maxInFlight httpTimeout : ℕ} {workers : U32} {scenario : Scenario}

theorem mem_warnings {w : OpenLoopWarning} :
    w ∈ openLoopWarnings (openLoopInput rate maxInFlight workers httpTimeout scenario) ↔
      w ∈ idleWarnings (openLoopInput rate maxInFlight workers httpTimeout scenario) ∨
        w ∈ inertWarnings (openLoopInput rate maxInFlight workers httpTimeout scenario) := by
  rw [openLoopWarnings, if_neg (by simp [openLoopInput]), List.mem_append]

theorem mem_idleWarnings {w : OpenLoopWarning} :
    w ∈ idleWarnings (openLoopInput rate maxInFlight workers httpTimeout scenario) →
      ∃ stages peak, rate = .curve stages ∧
        peakStageTarget (stages.map fun stage => .finite stage.target.val) = some peak ∧
        peak < workers.val ∧ w = .idleWorkers workers.val peak (workers.val - peak) := by
  intro h
  cases rate
  case fixed targetRps => simp [idleWarnings, openLoopInput] at h
  case curve stages =>
    cases hp : peakStageTarget (stages.map fun stage => .finite stage.target.val)
    case none => simp [idleWarnings, openLoopInput, ArrivalRate.stages, hp] at h
    case some peak =>
      simp only [idleWarnings, openLoopInput, ArrivalRate.stages, hp] at h
      split_ifs at h with hlt
      case pos => exact ⟨stages, peak, rfl, hp, hlt.2, List.mem_singleton.mp h⟩
      case neg => cases h

-- The rate that the slots are held against.
def checkedRate : ArrivalRate → Option ℚ
  | .fixed targetRps => targetRpsValid (.finite targetRps.val)
  | .curve stages    => peakStageTarget (stages.map fun stage => .finite stage.target.val)

def slotWarnings (maxInFlight : ℕ) (workers : U32) (bound : ℚ) : Option ℚ → List OpenLoopWarning
  | none   => []
  | some r =>
    if atMost (.finite workers.val) (.finite 1) ∧ 0 < r ∧ 0 < bound ∧ (1 : ℚ) ≤ maxInFlight ∧
        (⌈r * bound⌉ : ℚ) ≤ maxInFlight then
      [.inertSlots maxInFlight ⌈r * bound⌉]
    else []

theorem inertWarnings_eq :
    inertWarnings (openLoopInput rate maxInFlight workers httpTimeout scenario) =
      slotWarnings maxInFlight workers
        (iterationTimeUpperBoundSeconds httpTimeout scenario.steps scenario.defaultThinkTime)
        (checkedRate rate) := by
  cases rate
  case fixed targetRps =>
    simp only [inertWarnings, openLoopInput, checkedRate]
    cases targetRpsValid (.finite targetRps.val) <;> rfl
  case curve stages =>
    simp only [inertWarnings, openLoopInput, checkedRate, ArrivalRate.stages]
    cases peakStageTarget (stages.map fun stage => .finite stage.target.val) <;> rfl

theorem mem_slotWarnings {bound : ℚ} {r : Option ℚ} {w : OpenLoopWarning} :
    w ∈ slotWarnings maxInFlight workers bound r ↔ ∃ q : ℚ, r = some q ∧
      (atMost (.finite workers.val) (.finite 1) ∧ 0 < q ∧ 0 < bound ∧ (1 : ℚ) ≤ maxInFlight ∧
        (⌈q * bound⌉ : ℚ) ≤ maxInFlight) ∧ w = .inertSlots maxInFlight ⌈q * bound⌉ := by
  cases r
  case none => simp [slotWarnings]
  case some q =>
    rw [slotWarnings]
    split_ifs with hc
    case pos => simp [hc]
    case neg =>
      refine ⟨fun h => absurd h List.not_mem_nil, fun ⟨q', hq, hc', _⟩ => ?_⟩
      cases hq
      exact absurd hc' hc

theorem fixed_apart {targetRps : U32} (ha : (ArrivalRate.fixed targetRps).Accepted)
    (hs : Spaced maxInFlight (.fixed targetRps)) {k : ℕ} (hk : 1000 ≤ k)
    (hle : targetRps.val * k ≤ 1000 * maxInFlight) {i j : ℕ} (hij : i + maxInFlight ≤ j) :
    i * gap targetRps + k / 1000 ≤ j * gap targetRps := by
  have ⟨h₁, h₂⟩ := ha
  have hslots : 1000000 * k ≤ maxInFlight * (1000000000 / targetRps.val) := by
    cases hs
    case inl hlt =>
      have hge : targetRps.val * 1000 ≤ targetRps.val * k := Nat.mul_le_mul_left _ hk
      omega
    case inr hs =>
      have hk : k ≤ 1000 * maxInFlight / targetRps.val :=
        (Nat.le_div_iff_mul_le h₁).mpr (by rwa [Nat.mul_comm])
      exact (Nat.mul_le_mul_left _ hk).trans hs
  have hslots : (1000000 : ℝ) * k ≤ maxInFlight * (1000000000 / targetRps.val : ℕ) := by
    exact_mod_cast hslots
  have hij : (i : ℝ) + maxInFlight ≤ j := by exact_mod_cast hij
  have hgap : (0 : ℝ) ≤ (1000000000 / targetRps.val : ℕ) := Nat.cast_nonneg _
  rw [gap_eq h₁ h₂]
  generalize ((1000000000 / targetRps.val : ℕ) : ℝ) = interval at *
  have hmul : ((i : ℝ) + maxInFlight) * interval ≤ j * interval :=
    mul_le_mul_of_nonneg_right hij hgap
  linarith

theorem peak_is_target {stages : List Stage} {peak : ℚ}
    (hp : peakStageTarget (stages.map fun stage => .finite stage.target.val) = some peak) :
    ∃ stage ∈ stages, (stage.target.val : ℚ) = peak := by
  have ⟨_, hmem, hpeak⟩ := (peak_eq_some hp).1
  obtain ⟨stage, hstage, rfl⟩ := List.mem_map.mp hmem
  rw [targetRpsValid_natCast] at hpeak
  split_ifs at hpeak
  exact ⟨stage, hstage, Option.some.inj hpeak⟩

theorem target_le_peak {stages : List Stage} (ha : (ArrivalRate.curve stages).Accepted) {peak : ℚ}
    (hp : peakStageTarget (stages.map fun stage => .finite stage.target.val) = some peak)
    {stage : Stage} (hstage : stage ∈ stages) : (stage.target.val : ℚ) ≤ peak := by
  by_cases h₁ : 1 ≤ stage.target.val
  case pos =>
    have hv : targetRpsValid (.finite stage.target.val) = some (stage.target.val : ℚ) := by
      rw [targetRpsValid_natCast, if_pos ⟨h₁, ha stage hstage⟩]
    exact (peak_eq_some hp).2 _ (List.mem_map.mpr ⟨stage, hstage, rfl⟩) _ hv
  case neg =>
    have ⟨top, _, he⟩ := peak_is_target hp
    rw [Nat.eq_zero_of_not_pos h₁, ← he]
    exact_mod_cast Nat.zero_le _

theorem curve_apart {stages : List Stage} (ha : (ArrivalRate.curve stages).Accepted) {peak : ℚ}
    (hp : peakStageTarget (stages.map fun stage => .finite stage.target.val) = some peak)
    (hpos : 0 < peak) {bound : ℚ} (hle : peak * bound ≤ maxInFlight) (hm : 1 ≤ maxInFlight) {t τ : ℝ}
    (ht : 0 ≤ t) (hτ : 0 ≤ τ) {i j : ℕ} (hi : cumulative stages t = i + 1 / 2)
    (hj : cumulative stages τ = j + 1 / 2) (hij : i + maxInFlight ≤ j) : t + bound ≤ τ := by
  have hij : (i : ℝ) + maxInFlight ≤ j := by exact_mod_cast hij
  have hm : (1 : ℝ) ≤ maxInFlight := by exact_mod_cast hm
  have hle : (peak : ℝ) * bound ≤ maxInFlight := by exact_mod_cast hle
  have hpos : (0 : ℝ) < peak := by exact_mod_cast hpos
  have htτ : t ≤ τ := by
    by_contra hlt
    have hmono : cumulative stages τ ≤ cumulative stages t := cumulative_mono hτ (not_le.mp hlt).le
    linarith
  have htargets : ∀ stage ∈ stages, (stage.target.val : ℝ) ≤ peak := by
    intro stage hstage
    exact_mod_cast target_le_peak ha hp hstage
  have harea := cumulative_sub_le hpos.le htargets ht htτ
  rw [hi, hj] at harea
  have hmul : (peak : ℝ) * bound ≤ peak * (τ - t) := by linarith
  linarith [le_of_mul_le_mul_left hmul hpos]

theorem mem_warnings_inert {m threshold : ℚ} :
    .inertSlots m threshold ∈
        openLoopWarnings (openLoopInput rate maxInFlight workers httpTimeout scenario) ↔
      .inertSlots m threshold ∈ slotWarnings maxInFlight workers
        (iterationTimeUpperBoundSeconds httpTimeout scenario.steps scenario.defaultThinkTime)
        (checkedRate rate) := by
  rw [mem_warnings, inertWarnings_eq, or_iff_right]
  intro h
  have ⟨_, _, _, _, _, he⟩ := mem_idleWarnings h
  cases he

theorem due_apart (ha : rate.Accepted) (hs : Spaced maxInFlight rate) {r bound : ℚ}
    (hb : IsBound bound) (hr : checkedRate rate = some r) (hpos : 0 < r) (hbound : 0 < bound)
    (hm : 1 ≤ maxInFlight) (hle : r * bound ≤ maxInFlight) {n i j : ℕ} {due due' : ℝ}
    (hi : (rate.dues Real.sqrt n)[i]? = some (some due))
    (hj : (rate.dues Real.sqrt n)[j]? = some (some due')) (hij : i + maxInFlight ≤ j) :
    due + bound ≤ due' := by
  cases rate
  case fixed targetRps =>
    obtain ⟨k, rfl, hk⟩ := hb
    have hk : 1000 ≤ k := hk.resolve_left fun h => by simp [h] at hbound
    have ha' : 1 ≤ targetRps.val ∧ targetRps.val ≤ 1000000 := ha
    rw [checkedRate, targetRpsValid_natCast, if_pos ha'] at hr
    obtain rfl := Option.some.inj hr
    have hle : (targetRps.val * k : ℚ) ≤ 1000 * maxInFlight := by linarith
    have hle : targetRps.val * k ≤ 1000 * maxInFlight := by exact_mod_cast hle
    have h := fixed_apart ha hs hk hle hij
    rw [fixed_due hi, fixed_due hj]
    push_cast
    exact h
  case curve stages =>
    have ⟨hd, hi⟩ := curve_due hi
    have ⟨hd', hj⟩ := curve_due hj
    exact curve_apart ha hr hpos hle hm hd hd' hi hj hij

theorem inert_of_spaced (ha : rate.Accepted) (hs : Spaced maxInFlight rate) {threshold : ℚ}
    (hv : TimesValid scenario) (ht : 1 ≤ httpTimeout)
    (h : .inertSlots maxInFlight threshold ∈
      openLoopWarnings (openLoopInput rate maxInFlight workers httpTimeout scenario))
    {deadline : ℝ} {tooks : List ℚ} (htook : ∀ took ∈ tooks, Takes httpTimeout scenario took) :
    (openLoop rate maxInFlight deadline tooks).dropped = 0 := by
  have ⟨r, hr, ⟨_, hpos, hbound, hm, hceil⟩, _⟩ := mem_slotWarnings.1 (mem_warnings_inert.1 h)
  have hb := IsBound.steps ht scenario.steps hv.steps scenario.defaultThinkTime
  have hm : 1 ≤ maxInFlight := by exact_mod_cast hm
  have hle := (Int.le_ceil _).trans hceil
  refine ArrivalLoop.dropped_eq_zero hm ?_
  intro i j due took due' took' hi hj hij
  rw [List.getElem?_zip_eq_some] at hi hj
  have hdue := due_apart ha hs hb hr hpos hbound hm hle hi.1 hj.1 hij
  rw [List.getElem?_map, Option.map_eq_some_iff] at hi
  obtain ⟨_, q, hq, rfl⟩ := hi
  obtain ⟨it, rows, htimely, hclient, rfl⟩ := htook q (List.mem_of_getElem? hq)
  have hend := Within.runIteration htimely (hclient ▸ Nat.cast_nonneg _) hv rows 0
  rw [hclient, zero_add] at hend
  have hend : ((it.runIteration scenario rows 0).strand.clock : ℝ) ≤
    (iterationTimeUpperBoundSeconds httpTimeout scenario.steps scenario.defaultThinkTime : ℚ) := by
    exact_mod_cast hend
  linarith

theorem share_eq_zero {target n i : ℕ} (ht : target < 2 ^ 32) (hi : i < n) (hn : target < n) :
    (Shard.shardSplit target n i).2 = 0 ↔ target ≤ i := by
  rw [Shard.shardSplit_eq ht hi]
  simp only [Apportionment.evenShare, Nat.div_eq_of_lt hn, Nat.mod_eq_of_lt hn]
  split_ifs with h
  case pos => exact ⟨False.elim, fun hle => absurd h (not_lt.mpr hle)⟩
  case neg => omega

-- The workers beyond the peak get nothing in any stage, and the ones before it get something at the
-- peak.
theorem idle_workers (ha : rate.Accepted) {peak idle : ℚ}
    (h : .idleWorkers workers.val peak idle ∈
      openLoopWarnings (openLoopInput rate maxInFlight workers httpTimeout scenario)) :
    idleCount rate workers.val = idle := by
  rw [mem_warnings, inertWarnings_eq] at h
  have h := h.resolve_right fun h => by
    have ⟨_, _, _, he⟩ := mem_slotWarnings.1 h
    cases he
  obtain ⟨stages, peak, rfl, hp, hlt, he⟩ := mem_idleWarnings h
  cases he
  obtain ⟨top, htop, rfl⟩ := peak_is_target hp
  have hle : ∀ stage ∈ stages, stage.target.val ≤ top.target.val := by
    intro stage hstage
    exact_mod_cast target_le_peak ha hp hstage
  have hlt : top.target.val < workers.val := by exact_mod_cast hlt
  have hidle : ∀ i ∈ List.range workers.val,
      (stages.all fun stage => (Shard.shardSplit stage.target.val workers.val i).2 = 0) =
        decide (top.target.val ≤ i) := by
    intro i hi
    have hi := List.mem_range.mp hi
    rw [Bool.eq_iff_iff, List.all_eq_true, decide_eq_true_iff]
    constructor
    case mp =>
      intro h
      exact (share_eq_zero top.target.isLt hi hlt).mp (of_decide_eq_true (h top htop))
    case mpr =>
      intro h stage hstage
      have hstage := hle stage hstage
      exact decide_eq_true <|
        (share_eq_zero stage.target.isLt hi (hstage.trans_lt hlt)).mpr (hstage.trans h)
  have hcount : idleCount (.curve stages) workers.val = workers.val - top.target.val := by
    rw [idleCount, ArrivalRate.stages, List.countP_congr fun i hi => by rw [hidle i hi]]
    obtain ⟨n, hn⟩ := Nat.exists_eq_add_of_lt hlt
    rw [hn, Nat.add_assoc, List.range_add, List.countP_append, List.countP_map]
    have h₀ : (List.range top.target.val).countP (fun i => top.target.val ≤ i) = 0 :=
      List.countP_eq_zero.mpr (by simp)
    have h₁ : (List.range (n + 1)).countP
        ((fun i => decide (top.target.val ≤ i)) ∘ (top.target.val + ·)) =
        (List.range (n + 1)).length := List.countP_eq_length.mpr (by simp)
    rw [h₀, h₁, List.length_range]
    omega
  rw [hcount, Nat.cast_sub hlt.le]

-- Where every iteration takes longer than all slots last, there is one slot too few.
theorem dropped_of_long {targetRps : U32} {took : ℚ} (h : maxInFlight * gap targetRps < took) :
    (openLoop (.fixed targetRps) maxInFlight (took + 1)
      (List.replicate (maxInFlight + 1) took)).dropped = 1 := by
  have hgap : 0 ≤ gap targetRps := by
    unfold gap
    positivity
  rw [openLoop, List.length_replicate, ArrivalLoop.run_crowded (took : ℝ)]
  case hr => exact fun e he => absurd he List.not_mem_nil
  case hs => exact Nat.zero_le _
  case hd =>
    intro a ha
    obtain ⟨hdue, htook⟩ := List.of_mem_zip ha
    have htook : a.2 = took := by
      rw [List.map_replicate] at htook
      exact List.eq_of_mem_replicate htook
    simp only [ArrivalRate.dues, List.mem_map, List.mem_range] at hdue
    obtain ⟨k, hk, hdue⟩ := hdue
    have hk : (k : ℝ) ≤ maxInFlight := by exact_mod_cast Nat.lt_succ_iff.mp hk
    have hle : k * gap targetRps ≤ maxInFlight * gap targetRps := mul_le_mul_of_nonneg_right hk hgap
    have hpos : 0 ≤ k * gap targetRps := mul_nonneg (Nat.cast_nonneg k) hgap
    refine ⟨k * gap targetRps, hdue.symm, by linarith, by linarith, ?_⟩
    rw [htook]
    linarith
  simp [ArrivalRate.dues]

theorem atMost_one : atMost (.finite (1 : U32).val) (.finite 1) = true := by
  simp [atMost]

-- A scenario whose iterations take any whole number of milliseconds, from a second on.
theorem warned_of_fits {targetRps : U32} (ha : (ArrivalRate.fixed targetRps).Accepted) {k : ℕ}
    (hk : 1000 ≤ k) (hle : k * targetRps.val ≤ 1000 * maxInFlight) :
    ∃ scenario threshold, TimesValid scenario ∧ Takes 1 scenario (k / 1000) ∧
      .inertSlots maxInFlight threshold ∈
        openLoopWarnings (openLoopInput (.fixed targetRps) maxInFlight 1 1 scenario) := by
  have ha' : 1 ≤ targetRps.val ∧ targetRps.val ≤ 1000000 := ha
  have hms : k % 1000 < 2 ^ 32 := by omega
  obtain ⟨n, hn⟩ := Nat.exists_eq_add_of_le ((Nat.le_div_iff_mul_le (by simp)).mpr hk : 1 ≤ k / 1000)
  have htime : (n : ℚ) + 1 + (k % 1000 : ℕ) / 1000 = k / 1000 := by
    have hk : k = 1000 * (1 + n) + k % 1000 := by omega
    have hk : (k : ℚ) = 1000 * (1 + n) + (k % 1000 : ℕ) := by exact_mod_cast hk
    linarith
  have hbound := slow_bound n ⟨k % 1000, hms⟩
  have ⟨it, rows, ht, hc, hclock⟩ := slow_takes n ⟨k % 1000, hms⟩
  rw [htime] at hbound hclock
  have hle : (targetRps.val : ℚ) * (k / 1000) ≤ maxInFlight := by
    have hle : (k : ℚ) * targetRps.val ≤ 1000 * maxInFlight := by exact_mod_cast hle
    linarith
  have hpos : (0 : ℚ) < k / 1000 := by
    have hk : (1000 : ℚ) ≤ k := by exact_mod_cast hk
    linarith
  have hm : (1 : ℚ) ≤ maxInFlight := by
    have hm : 1 ≤ maxInFlight := by nlinarith
    exact_mod_cast hm
  refine ⟨slowScenario n ⟨k % 1000, hms⟩, ⌈(targetRps.val : ℚ) * (k / 1000)⌉,
    slow_valid (by simp; omega), ⟨it, rows, ht, hc, hclock⟩, ?_⟩
  refine mem_warnings_inert.2
    (mem_slotWarnings.2 ⟨targetRps.val, ?_, ⟨atMost_one, ?_, ?_, hm, ?_⟩, ?_⟩)
  case refine_1 => rw [checkedRate, targetRpsValid_natCast, if_pos ha']
  case refine_2 => exact_mod_cast ha'.1
  case refine_3 => exact hbound ▸ hpos
  case refine_4 =>
    have hceil : ⌈(targetRps.val : ℚ) * (k / 1000)⌉ ≤ (maxInFlight : ℤ) := Int.ceil_le.mpr hle
    rw [hbound]
    exact_mod_cast hceil
  case refine_5 => rw [hbound]

theorem spaced_of_inert {targetRps : U32} (ha : (ArrivalRate.fixed targetRps).Accepted)
    (h : NoFalsePositives (.fixed targetRps) maxInFlight) :
    Spaced maxInFlight (.fixed targetRps) := by
  have ⟨h₁, h₂⟩ := ha
  by_contra hs
  have ⟨hle, hlt⟩ := not_or.mp hs
  have hlt := not_le.mp hlt
  have hk : 1000 ≤ 1000 * maxInFlight / targetRps.val :=
    (Nat.le_div_iff_mul_le h₁).mpr (Nat.mul_le_mul_left _ (not_lt.mp hle))
  have ⟨scenario, threshold, hv, htakes, hwarn⟩ := warned_of_fits ha hk (Nat.div_mul_le_self _ _)
  generalize 1000 * maxInFlight / targetRps.val = k at *
  have hlong : maxInFlight * gap targetRps < ((k / 1000 : ℚ) : ℝ) := by
    have hlt : (maxInFlight : ℝ) * (1000000000 / targetRps.val : ℕ) < 1000000 * k := by
      exact_mod_cast hlt
    rw [gap_eq h₁ h₂]
    push_cast
    linarith
  have hzero := h.inert scenario 1 1 threshold hv le_rfl hwarn ((k / 1000 : ℚ) + 1)
    (List.replicate (maxInFlight + 1) (k / 1000)) fun took hm => List.eq_of_mem_replicate hm ▸ htakes
  rw [dropped_of_long hlong] at hzero
  cases hzero

end

-- The warnings hold for every curve, and at a fixed rate where the slots outlast the whole
-- nanoseconds between attempts.
theorem warnings_hold_iff_spaced (rate : ArrivalRate) (maxInFlight : ℕ) (h : rate.Accepted) :
    NoFalsePositives rate maxInFlight ↔ Spaced maxInFlight rate := by
  constructor
  case mp =>
    intro hn
    cases rate
    case fixed targetRps => exact spaced_of_inert h hn
    case curve stages    => trivial
  case mpr =>
    exact fun hs => {
      longest := fun it scenario rows clock ht h₀ hv => Within.runIteration ht h₀ hv rows clock
      inert   := fun scenario httpTimeout workers threshold hv ht hw deadline tooks htook =>
        inert_of_spaced h hs hv ht hw htook
      idle    := fun scenario httpTimeout workers peak idle hw => idle_workers h hw }

-- Four attempts a second are a whole number of nanoseconds apart.
theorem warnings_hold_at_four : NoFalsePositives (.fixed 4) 8 :=
  (warnings_hold_iff_spaced (.fixed 4) 8 ⟨by decide, by decide⟩).mpr (.inr (by decide))

-- Three attempts a second are not: the slots are warned about, and the fourth attempt comes a
-- nanosecond before the answer to the first one.
theorem warnings_fail_at_three :
    Takes 1 (slowScenario 0 0) 1 ∧
      .inertSlots 3 3 ∈ openLoopWarnings (openLoopInput (.fixed 3) 3 1 1 (slowScenario 0 0)) ∧
      (openLoop (.fixed 3) 3 2 [1, 1, 1, 1]).dropped = 1 ∧ ¬NoFalsePositives (.fixed 3) 3 := by
  have htakes : Takes 1 (slowScenario 0 0) 1 := by
    have ⟨it, rows, ht, hc, hclock⟩ := slow_takes 0 0
    exact ⟨it, rows, ht, hc, by simpa using hclock⟩
  have hwarn : .inertSlots 3 3 ∈
      openLoopWarnings (openLoopInput (.fixed 3) 3 1 1 (slowScenario 0 0)) := by
    have hbound : iterationTimeUpperBoundSeconds (1 : ℕ) (slowScenario 0 0).steps
        (slowScenario 0 0).defaultThinkTime = 1 := by simpa using slow_bound 0 0
    refine mem_warnings_inert.2 (mem_slotWarnings.2 ⟨3, ?_, ⟨atMost_one, ?_⟩, ?_⟩)
    case refine_1 => exact (@targetRpsValid_natCast 3).trans (by norm_num)
    case refine_2 =>
      rw [hbound]
      norm_num
    case refine_3 =>
      rw [hbound]
      norm_num
  have hlong : (3 : ℕ) * gap 3 < ((1 : ℚ) : ℝ) := by
    rw [gap_eq (by decide) (by decide)]
    norm_num
  have hdropped : (openLoop (.fixed 3) 3 2 [1, 1, 1, 1]).dropped = 1 := by
    have hdropped := dropped_of_long hlong
    norm_num at hdropped
    exact hdropped
  refine ⟨htakes, hwarn, hdropped, fun h => ?_⟩
  have hvalid : TimesValid (slowScenario 0 0) := slow_valid (by simp)
  have hzero := h.inert (slowScenario 0 0) 1 1 3 hvalid le_rfl hwarn 2 [1, 1, 1, 1]
    (by simpa using htakes)
  rw [hdropped] at hzero
  cases hzero

end Ui
