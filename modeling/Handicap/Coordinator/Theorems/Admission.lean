import Handicap.Coordinator.Theorems.Pool

open Store Tiling Apportionment

-- Which loads the pool admits, and how it spreads them over its workers.
namespace Coordinator.Pool

variable {pool : Pool} {worker w : WorkerId} {workers : List (WorkerId × Tx)} {run : RunId}
variable {workerCap slotTotal : U32} {e : PoolEntry}

-- The check of a launch before its run is inserted: some worker is idle, but what they can achieve
-- is less than the load.
def Refuses (pool : Pool) (workerCap slotTotal : U32) (achievable : ℕ) : Prop :=
  0 < (pool.achievableCapacity workerCap).1 ∧
    (pool.achievableCapacity workerCap).2 = achievable ∧ achievable < slotTotal

-- The worker is idle over the channel, and its slice is not empty and within its capacity.
def Bears (pool : Pool) (worker : WorkerId × Tx) (slice : ℕ × ℕ) : Prop :=
  ∃ e, pool.lookup worker.1 = some e ∧ e.tx = worker.2 ∧ e.assignedRun = none ∧
    e.drained = false ∧ 1 ≤ slice.2 ∧ slice.2 ≤ max e.effectiveCapacityVus.val 1

def effectiveCapacity (pool : Pool) (worker : WorkerId) : ℕ :=
  ((pool.lookup worker).map (·.effectiveCapacityVus.val)).getD 0

-- Some choice of at most so many idle workers has the capacity for the load.
def CanBear (pool : Pool) (workerCap slotTotal : U32) : Prop :=
  ∃ workers : List WorkerId, workers.Nodup ∧ workers.length ≤ workerCap ∧
    (∀ w ∈ workers, pool.isIdle w) ∧ slotTotal ≤ (workers.map pool.effectiveCapacity).sum

theorem mem_idle : (w, e) ∈ pool.idle ↔ pool.lookup w = some e ∧ e.isIdle := by
  refine ⟨isIdle_of_mem_idle, fun ⟨he, hi⟩ => ?_⟩
  rw [idle, List.mem_insertionSort, List.mem_map]
  exact ⟨⟨w, e⟩, List.mem_filter.mpr ⟨AList.mem_lookup_iff.mp he, hi⟩, rfl⟩

theorem idle_nodup : (pool.idle.map Prod.fst).Nodup := by
  have hs : (pool.entries.filter (·.2.isIdle)).NodupKeys :=
    pool.nodupKeys.sublist List.filter_sublist
  have hp := (List.perm_insertionSort (fun a b : WorkerId × PoolEntry => ¬b.1 < a.1)
    ((pool.entries.filter (·.2.isIdle)).map fun e => (e.1, e.2))).map Prod.fst
  rw [List.map_map] at hp
  exact hp.nodup_iff.mpr hs

theorem reserveIdlePoolCapacity_insufficient {achievable : ℕ} :
    (pool.reserveIdlePoolCapacity run workerCap slotTotal).1 = .insufficient achievable ↔
      Refuses pool workerCap slotTotal achievable := by
  simp only [reserveIdlePoolCapacity, Refuses, achievableCapacity]
  split_ifs with hi ha
  case pos => simp [List.isEmpty_iff.mp hi]
  case pos =>
    have hp : 0 < pool.idle.length := List.length_pos_of_ne_nil (by simpa using hi)
    simp only [PoolReservation.insufficient.injEq, hp, true_and]
    exact ⟨fun h => ⟨h, h ▸ ha⟩, And.left⟩
  case neg =>
    simp only [false_iff]
    rintro ⟨-, rfl, h⟩
    exact ha h

theorem slices_bear (hn : (pool.candidates workerCap).length ≤ slotTotal)
    (h : slotTotal ≤ Shard.achievableCapacity (caps (pool.candidates workerCap))) :
    List.Forall₂ (Bears pool) ((pool.candidates workerCap).map fun w => (w.1, w.2.tx))
      (pool.slices workerCap slotTotal) := by
  have hs := capacitySplit_sum h
  have hsnd : (pool.slices workerCap slotTotal).map Prod.snd =
      capped (evenShares slotTotal (caps (pool.candidates workerCap)).length)
        ((caps (pool.candidates workerCap)).map (max · 1)) := by
    rw [slices, prefixCounts_eq 0 (by omega), ofLengths_map_snd,
      Shard.capacitySplit_eq slotTotal.isLt (pool.caps_length_lt _) caps_lt]
  have hle : List.Forall₂ (· ≤ ·)
      (capped (evenShares slotTotal (caps (pool.candidates workerCap)).length)
        ((caps (pool.candidates workerCap)).map (max · 1)))
      ((caps (pool.candidates workerCap)).map (max · 1)) := capped_le (by simp)
  rw [← hsnd, caps, List.map_map, List.forall₂_map_left_iff, List.forall₂_map_right_iff] at hle
  rw [List.forall₂_map_left_iff, List.forall₂_iff_zip]
  obtain ⟨hl, hz⟩ := List.forall₂_iff_zip.mp hle.flip
  refine ⟨hl, fun {w c} hm => ?_⟩
  obtain ⟨hw, hc⟩ := List.of_mem_zip hm
  obtain ⟨he, hi⟩ := isIdle_of_mem_idle (List.mem_of_mem_take hw)
  simp only [PoolEntry.isIdle, Bool.and_eq_true, Bool.not_eq_true', Option.isNone_iff_eq_none] at hi
  exact ⟨w.2, he, rfl, hi.left, hi.right, slices_pos hn h c hc, hz hm⟩

-- What the candidates can achieve, where no worker counts as nothing.
theorem refuses_iff :
    (∃ achievable, Refuses pool workerCap slotTotal achievable) ↔
      pool.idle ≠ [] ∧
        ((pool.candidates workerCap).map (max ·.2.effectiveCapacityVus.val 1)).sum <
          slotTotal := by
  have ht := slotTotal.isLt
  simp only [Refuses, achievableCapacity, Shard.achievableCapacity_eq, caps, List.map_map,
    List.length_pos_iff, Function.comp_def, exists_and_left, exists_eq_left', min_lt_iff]
  exact and_congr_right fun _ => or_iff_left (by omega)

-- The refusal is final where all idle workers are considered, and where they are not because there
-- are as many of them as there are slots.
theorem not_canBear (h : ∃ achievable, Refuses pool workerCap slotTotal achievable)
    (hc : pool.idle.length ≤ workerCap ∨ slotTotal = workerCap) :
    ¬CanBear pool workerCap slotTotal := by
  obtain ⟨_, hs⟩ := refuses_iff.1 h
  have hl : pool.idle.length ≤ workerCap := by
    refine hc.elim id fun he => ?_
    by_contra hl
    have hn : (pool.candidates workerCap).length = workerCap := by
      rw [candidates, List.length_take]
      omega
    have hp := List.length_le_sum_of_one_le
      ((pool.candidates workerCap).map (max ·.2.effectiveCapacityVus.val 1)) fun x hx => by
        obtain ⟨_, _, hx⟩ := List.mem_map.mp hx
        exact hx ▸ le_max_right _ _
    have he := congrArg Fin.val he
    rw [List.length_map] at hp
    omega
  rw [candidates, List.take_of_length_le hl] at hs
  rintro ⟨workers, hn, -, hi, hle⟩
  refine absurd (hle.trans ?_) hs.not_ge
  have hsub : workers ⊆ pool.idle.map Prod.fst := by
    intro w hw
    have hw := hi w hw
    rw [isIdle] at hw
    obtain ⟨e, he, hw⟩ := Option.any_eq_true _ _ |>.mp hw
    exact List.mem_map.mpr ⟨(w, e), mem_idle.2 ⟨he, hw⟩, rfl⟩
  obtain ⟨l, hp, hl⟩ := hn.subperm hsub
  calc (workers.map pool.effectiveCapacity).sum
      = (l.map pool.effectiveCapacity).sum := (hp.map _).sum_eq.symm
    _ ≤ ((pool.idle.map Prod.fst).map pool.effectiveCapacity).sum :=
      (hl.map _).sum_le_sum fun _ _ => Nat.zero_le _
    _ ≤ (pool.idle.map (max ·.2.effectiveCapacityVus.val 1)).sum := by
      rw [List.map_map]
      refine List.sum_le_sum fun w hw => ?_
      simp [effectiveCapacity, (mem_idle.1 hw).left]

-- A reservation gives every reserved worker a share that it can bear; the check before the insert
-- refuses exactly the loads that the reservation refuses; and these are the loads that the first
-- idle workers cannot bear.
theorem capacity_admission (pool : Pool) (run : RunId) (workerCap slotTotal : U32)
    (h : workerCap ≤ slotTotal) :
    (∀ workers counts,
      (pool.reserveIdlePoolCapacity run workerCap slotTotal).1 = .reserved workers counts →
      workers ≠ [] →
      (workers.map Prod.fst).Nodup ∧ List.Forall₂ (Bears pool) workers counts.toList ∧
        Tiles 0 slotTotal counts.toList) ∧
    (∀ achievable,
      (pool.reserveIdlePoolCapacity run workerCap slotTotal).1 = .insufficient achievable ↔
        Refuses pool workerCap slotTotal achievable) ∧
    ((∃ achievable, Refuses pool workerCap slotTotal achievable) ↔
      pool.idle ≠ [] ∧
        ((pool.candidates workerCap).map (max ·.2.effectiveCapacityVus.val 1)).sum <
          slotTotal) ∧
    ((∃ achievable, Refuses pool workerCap slotTotal achievable) →
      pool.idle.length ≤ workerCap ∨ slotTotal = workerCap →
      ¬CanBear pool workerCap slotTotal) := by
  refine ⟨fun workers counts hr hne => ?_, fun _ => reserveIdlePoolCapacity_insufficient,
    refuses_iff, not_canBear⟩
  obtain ⟨rfl, hc, ha⟩ := reserved_eq hr hne
  rw [hc]
  refine ⟨?_, slices_bear (candidates_length_le.trans h) ha, slices_tile ha⟩
  rw [List.map_map]
  exact idle_nodup.sublist ((List.take_sublist _ _).map _)

-- Two workers for a load of many slots that has use for one of them: the first one is too small.
def twoWorkers : Pool :=
  ((∅ : Pool).registerIdle "a" 0 1 "" false none).registerIdle "b" 1 100 "" false none

theorem capacity_admission_two : ¬CanBear twoWorkers 2 102 :=
  (capacity_admission twoWorkers "r" 2 102 (by decide)).right.right.right
    ⟨101, by decide, by decide, by decide⟩ (.inl (by decide))

theorem capacity_admission_counterexample :
    ¬∀ (pool : Pool) (run : RunId) (workerCap slotTotal : U32), 1 ≤ workerCap →
      workerCap ≤ slotTotal → ∀ achievable,
      (pool.reserveIdlePoolCapacity run workerCap slotTotal).1 = .insufficient achievable →
      ¬CanBear pool workerCap slotTotal := by
  intro h
  refine h twoWorkers "r" 1 50 (by decide) (by decide) 1 rfl ⟨["b"], by decide⟩

end Coordinator.Pool
