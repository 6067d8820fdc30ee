import Handicap.Coordinator.Pool

open Store Tiling Apportionment

namespace Coordinator

theorem prefixCounts_eq (off : ℕ) {split : List ℕ} (h : off + split.sum < 2 ^ 32) :
    prefixCounts off split = ofLengths off split := by
  induction split generalizing off
  case nil => rfl
  case cons c split ih =>
    rw [List.sum_cons] at h
    rw [prefixCounts, ofLengths, Word.add_eq (by omega), ih _ (by omega)]

namespace Pool

variable {pool : Pool} {worker w : WorkerId} {workers : List WorkerId} {run : RunId}
variable {workerCap slotTotal : U32}

section Lookup

theorem lookup_modify (f : PoolEntry → PoolEntry) :
    (pool.modify worker f).lookup w =
      if w = worker then (pool.lookup w).map f else pool.lookup w := by
  rw [modify]
  split
  case h_1 e he =>
    split
    case isTrue h => subst h; rw [AList.lookup_insert, he, Option.map_some]
    case isFalse h => exact AList.lookup_insert_ne h
  case h_2 he =>
    split
    case isTrue h => subst h; rw [he, Option.map_none]
    case isFalse h => rfl

theorem lookup_modifyAll {f : PoolEntry → PoolEntry} (hf : ∀ e, f (f e) = f e) :
    (pool.modifyAll workers f).lookup w =
      if w ∈ workers then (pool.lookup w).map f else pool.lookup w := by
  rw [modifyAll]
  induction workers generalizing pool
  case nil => simp
  case cons v workers ih =>
    have hff : f ∘ f = f := funext hf
    rw [List.foldl_cons, ih, lookup_modify]
    by_cases hv : w = v <;> by_cases hw : w ∈ workers <;> simp [hv, hw, hff]

theorem lookup_reserve :
    (pool.reserve run workers).lookup w =
      if w ∈ workers then (pool.lookup w).map ({ · with assignedRun := some run })
      else pool.lookup w :=
  lookup_modifyAll fun _ => rfl

theorem lookup_release {workers : List (WorkerId × Tx)} :
    (pool.releasePoolReservation workers).lookup w =
      if w ∈ workers.map Prod.fst then (pool.lookup w).map ({ · with assignedRun := none })
      else pool.lookup w :=
  lookup_modifyAll fun _ => rfl

end Lookup

section Reservation

theorem candidates_length_le : (pool.candidates workerCap).length ≤ workerCap :=
  List.length_take_le _ _

theorem caps_lt : ∀ c ∈ caps (pool.candidates workerCap), c < 2 ^ 32 := by
  intro c hc
  obtain ⟨e, -, rfl⟩ := List.mem_map.mp hc
  exact Fin.isLt _

-- The candidates can bear the load, so the capacity split hands out all of it.
theorem capacitySplit_sum
    (h : slotTotal ≤ Shard.achievableCapacity (caps (pool.candidates workerCap))) :
    (Shard.capacitySplit slotTotal (caps (pool.candidates workerCap))).sum = slotTotal := by
  rw [Shard.achievableCapacity_eq, le_min_iff] at h
  rw [Shard.capacitySplit_eq slotTotal.isLt (pool.caps_length_lt _) caps_lt,
    capped_sum (by simp)]
  cases hn : (caps (pool.candidates workerCap)).length
  case zero =>
    rw [List.eq_nil_of_length_eq_zero hn] at h ⊢
    simp_all [evenShares]
  case succ n => rw [evenShares_sum _ (Nat.succ_pos n), min_eq_left h.left]

theorem slices_tile
    (h : slotTotal ≤ Shard.achievableCapacity (caps (pool.candidates workerCap))) :
    Tiles 0 slotTotal (pool.slices workerCap slotTotal) := by
  have hs := capacitySplit_sum h
  have ht := ofLengths_tiles 0 (Shard.capacitySplit slotTotal (caps (pool.candidates workerCap)))
  rw [hs, Nat.zero_add] at ht
  rwa [slices, prefixCounts_eq 0 (by omega)]

-- With no more candidates than slots every candidate gets a slot.
theorem slices_pos (hn : (pool.candidates workerCap).length ≤ slotTotal)
    (h : slotTotal ≤ Shard.achievableCapacity (caps (pool.candidates workerCap))) :
    ∀ c ∈ pool.slices workerCap slotTotal, 1 ≤ c.2 := by
  intro c hc
  have hs := capacitySplit_sum h
  rw [slices, prefixCounts_eq 0 (by omega)] at hc
  have hm := List.mem_map_of_mem (f := Prod.snd) hc
  rw [ofLengths_map_snd,
    Shard.capacitySplit_eq slotTotal.isLt (pool.caps_length_lt _) caps_lt] at hm
  refine capped_pos ?_ (by simp) _ hm
  intro a ha
  obtain ⟨i, hi, rfl⟩ := List.mem_map.mp ha
  exact evenShare_pos (List.mem_range.mp hi) (by simpa [caps] using hn)

theorem reserved_eq {workers : List (WorkerId × Tx)} {counts : Vector (ℕ × ℕ) workers.length}
    (h : (pool.reserveIdlePoolCapacity run workerCap slotTotal).1 = .reserved workers counts)
    (hne : workers ≠ []) :
    workers = (pool.candidates workerCap).map (fun w => (w.1, w.2.tx)) ∧
      counts.toList = pool.slices workerCap slotTotal ∧
      slotTotal ≤ Shard.achievableCapacity (caps (pool.candidates workerCap)) := by
  simp only [reserveIdlePoolCapacity] at h
  split_ifs at h with he ha
  case pos => cases h; contradiction
  case neg =>
    cases h
    exact ⟨rfl, by simp [Vector.toList], not_lt.mp ha⟩

theorem reserveIdlePool_length_le (order : List WorkerId) (cap : ℕ) :
    (pool.reserveIdlePool order run cap).1.length ≤ cap :=
  (List.length_filterMap_le _ _).trans (List.length_take_le _ _)

end Reservation

section Reserved

variable {tx : Tx} {e : PoolEntry} {order : List WorkerId} {cap : ℕ}

-- The worker was idle over the channel, and is now reserved for the run.
def Reserves (pool pool' : Pool) (run : RunId) (w : WorkerId) (tx : Tx) : Prop :=
  ∃ e, pool.lookup w = some e ∧ e.isIdle ∧ e.tx = tx ∧
    pool'.lookup w = some { e with assignedRun := some run }

theorem Reserves.unique {pool' : Pool} {run' : RunId} {tx' : Tx} (h : Reserves pool pool' run w tx)
    (h' : Reserves pool pool' run' w tx') : run' = run := by
  have ⟨_, _, _, _, h⟩ := h
  have ⟨_, _, _, _, h'⟩ := h'
  exact Option.some.inj (congrArg PoolEntry.assignedRun (Option.some.inj (h'.symm.trans h)))

theorem isIdle_of_mem_idle (h : (w, e) ∈ pool.idle) : pool.lookup w = some e ∧ e.isIdle := by
  rw [idle, List.mem_insertionSort, List.mem_map] at h
  obtain ⟨⟨w', e'⟩, hm, he⟩ := h
  cases he
  have ⟨hm, hi⟩ := List.mem_filter.mp hm
  exact ⟨AList.mem_lookup_iff.mpr hm, hi⟩

theorem isIdle_of_mem_candidates (h : w ∈ (pool.candidates workerCap).map Prod.fst) :
    pool.isIdle w := by
  obtain ⟨⟨w, e⟩, hm, rfl⟩ := List.mem_map.mp h
  have ⟨he, hi⟩ := isIdle_of_mem_idle (List.mem_of_mem_take hm)
  rw [isIdle, he]
  exact hi

theorem isIdle_of_mem_ids (h : w ∈ (order.filter pool.isIdle).take cap) : pool.isIdle w :=
  (List.mem_filter.mp (List.mem_of_mem_take h)).right

theorem reserveIdlePool_reserves (h : (w, tx) ∈ (pool.reserveIdlePool order run cap).1) :
    Reserves pool (pool.reserveIdlePool order run cap).2 run w tx := by
  obtain ⟨w', hw, hm⟩ := List.mem_filterMap.mp h
  obtain ⟨e, he, ht⟩ := Option.map_eq_some_iff.mp hm
  cases ht
  clear hm
  have hi := isIdle_of_mem_ids hw
  rw [isIdle, he] at hi
  refine ⟨e, he, hi, rfl, ?_⟩
  change (pool.reserve run _).lookup w = _
  rw [lookup_reserve, if_pos hw, he]
  rfl

-- The capacity path reserves the candidates or leaves the pool as it is.
theorem reserveIdlePoolCapacity_pool (pool : Pool) (run : RunId) (workerCap slotTotal : U32) :
    (pool.reserveIdlePoolCapacity run workerCap slotTotal).2 = pool ∨
      (pool.reserveIdlePoolCapacity run workerCap slotTotal).2 =
        pool.reserve run ((pool.candidates workerCap).map Prod.fst) := by
  simp only [reserveIdlePoolCapacity]
  split_ifs
  case pos => exact .inl rfl
  case pos => exact .inl rfl
  case neg => exact .inr rfl

theorem reserveIdlePoolCapacity_reserves {workers : List (WorkerId × Tx)}
    {counts : Vector (ℕ × ℕ) workers.length}
    (h : (pool.reserveIdlePoolCapacity run workerCap slotTotal).1 = .reserved workers counts)
    (hw : (w, tx) ∈ workers) :
    Reserves pool (pool.reserveIdlePoolCapacity run workerCap slotTotal).2 run w tx := by
  simp only [reserveIdlePoolCapacity] at h ⊢
  split_ifs at h ⊢
  case pos => cases h; cases hw
  case neg =>
    cases h
    obtain ⟨⟨w', e⟩, hm, he⟩ := List.mem_map.mp hw
    cases he
    have ⟨he, hi⟩ := isIdle_of_mem_idle (List.mem_of_mem_take hm)
    refine ⟨e, he, hi, rfl, ?_⟩
    rw [lookup_reserve, if_pos (List.mem_map_of_mem hm), he]
    rfl

end Reserved

end Pool

end Coordinator
