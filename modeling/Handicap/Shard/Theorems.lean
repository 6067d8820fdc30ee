import Handicap.Library.Apportionment
import Handicap.Shard.Basic

-- Within the u32 range no operation of the splitters wraps around, so they compute the exact
-- apportionments.
namespace Shard

open Apportionment

variable {totalVus total n i k : ℕ} {caps weights alloc : List ℕ} {rems : List (ℕ × ℕ)}

section Even

theorem shardSplit_eq (ht : totalVus < 2 ^ 32) (hi : i < n) :
    shardSplit totalVus n i = (evenOffset totalVus n i, evenShare totalVus n i) := by
  have hle := evenOffset_add_evenShare_le totalVus hi
  simp only [shardSplit, evenOffset, evenShare] at hle ⊢
  generalize totalVus / n = base at hle ⊢
  generalize (if i < totalVus % n then 1 else 0) = extra at hle ⊢
  rw [Word.mul_eq (by omega), Word.add_eq (by omega), Word.add_eq (by omega)]

theorem map_shardSplit (ht : totalVus < 2 ^ 32) :
    (List.range n).map (fun i => (shardSplit totalVus n i).2) = evenShares totalVus n :=
  List.map_congr_left fun i hi => by rw [shardSplit_eq ht (List.mem_range.mp hi)]

theorem evenCounts_eq (ht : totalVus < 2 ^ 32) (hn : n < 2 ^ 32) :
    evenCounts totalVus n = evenShares totalVus n := by
  rw [evenCounts, Word.cast_eq hn, map_shardSplit ht]

theorem workerCount_pos : 1 ≤ workerCount totalVus n :=
  le_max_right _ _

theorem workerCount_le (h : 1 ≤ totalVus) : workerCount totalVus n ≤ totalVus := by
  have hcap : 0 < max n 1 := lt_max_of_lt_right Nat.one_pos
  refine max_le ?_ h
  exact (ceilDiv_le_iff_le_mul hcap).mpr (Nat.le_mul_of_pos_left _ hcap)

end Even

section Capacity

theorem achievableCapacity_foldl (a : ℕ) (ha : a ≤ 2 ^ 32 - 1) :
    caps.foldl (fun acc c => Word.saturatingAdd 32 acc (max c 1)) a =
      min (a + (caps.map (max · 1)).sum) (2 ^ 32 - 1) := by
  induction caps generalizing a
  case nil => simp; omega
  case cons c caps ih =>
    have hs : Word.saturatingAdd 32 a (max c 1) ≤ 2 ^ 32 - 1 := min_le_right _ _
    rw [List.foldl_cons, ih _ hs, Word.saturatingAdd, List.map_cons, List.sum_cons]
    omega

theorem achievableCapacity_eq :
    achievableCapacity caps = min (caps.map (max · 1)).sum (2 ^ 32 - 1) := by
  rw [achievableCapacity, achievableCapacity_foldl 0 (Nat.zero_le _), Nat.zero_add]

theorem reclaim_eq (overflow : ℕ) (h : overflow + alloc.sum < 2 ^ 32)
    (hl : alloc.length = caps.length) :
    reclaim overflow alloc caps =
      (overflow + excess alloc (caps.map (max · 1)),
        List.zipWith min alloc (caps.map (max · 1))) := by
  induction alloc generalizing overflow caps
  case nil =>
    cases caps
    case nil => simp [reclaim, excess]
    case cons => simp at hl
  case cons a alloc ih =>
    cases caps
    case nil => simp at hl
    case cons c caps =>
      rw [List.sum_cons] at h
      simp only [reclaim, excess, List.map_cons, List.zipWith_cons_cons, List.sum_cons]
      split
      case isTrue hc =>
        rw [Word.sub_eq hc.le (by omega), Word.add_eq (by omega),
          ih _ (by omega) (Nat.succ.inj hl), min_eq_right hc.le]
        simp only [excess, Nat.add_assoc]
      case isFalse hc =>
        rw [ih _ (by omega) (Nat.succ.inj hl), min_eq_left (by omega),
          Nat.sub_eq_zero_of_le (by omega), Nat.zero_add, excess]

theorem redistribute_eq (overflow : ℕ) (h : overflow + alloc.sum < 2 ^ 32)
    (hc : ∀ c ∈ caps, c < 2 ^ 32) (hle : List.Forall₂ (· ≤ ·) alloc (caps.map (max · 1))) :
    redistribute overflow alloc caps = refill overflow alloc (caps.map (max · 1)) := by
  induction alloc generalizing overflow caps
  case nil => cases caps <;> simp [redistribute, refill]
  case cons a alloc ih =>
    cases caps
    case nil => cases hle
    case cons c caps =>
      rw [List.map_cons, List.forall₂_cons] at hle
      rw [List.sum_cons] at h
      have hcap := hc c (by simp)
      simp only [redistribute, List.map_cons]
      split
      case isTrue h0 => rw [h0, refill_zero]
      case isFalse h0 =>
        rw [Word.sub_eq hle.left (by omega), Word.add_eq (by omega),
          Word.sub_eq (min_le_right _ _) (by omega),
          ih _ (by omega) (fun c hm => hc c (by simp [hm])) hle.right, refill]

theorem reclaim_length (overflow : ℕ) (alloc caps : List ℕ) :
    (reclaim overflow alloc caps).2.length = alloc.length := by
  induction alloc generalizing overflow caps
  case nil => cases caps <;> simp [reclaim]
  case cons a alloc ih =>
    cases caps
    case nil => simp [reclaim]
    case cons c caps =>
      simp only [reclaim]
      split <;> simp [ih]

theorem redistribute_length (overflow : ℕ) (alloc caps : List ℕ) :
    (redistribute overflow alloc caps).length = alloc.length := by
  induction alloc generalizing overflow caps
  case nil => cases caps <;> simp [redistribute]
  case cons a alloc ih =>
    cases caps
    case nil => simp [redistribute]
    case cons c caps =>
      simp only [redistribute]
      split <;> simp [ih]

theorem capacitySplit_length (totalVus : ℕ) (hn : caps.length < 2 ^ 32) :
    (capacitySplit totalVus caps).length = caps.length := by
  simp only [capacitySplit]
  split
  case isTrue h0 => simp [h0]
  case isFalse h0 =>
    rw [redistribute_length, reclaim_length, evenCounts, List.length_map, List.length_range,
      Word.cast_eq hn]

theorem capacitySplit_eq (ht : totalVus < 2 ^ 32) (hn : caps.length < 2 ^ 32)
    (hc : ∀ c ∈ caps, c < 2 ^ 32) :
    capacitySplit totalVus caps =
      capped (evenShares totalVus caps.length) (caps.map (max · 1)) := by
  simp only [capacitySplit]
  split
  case isTrue h0 => simp [List.eq_nil_of_length_eq_zero h0, capped, evenShares, excess, refill]
  case isFalse h0 =>
    have hsum := evenShares_sum totalVus (Nat.pos_of_ne_zero h0)
    have hl : (evenShares totalVus caps.length).length = (caps.map (max · 1)).length := by simp
    have hex := zipWith_min_sum_add_excess hl
    rw [evenCounts_eq ht hn, reclaim_eq 0 (by omega) (by simp)]
    simp only [Nat.zero_add]
    rw [redistribute_eq _ (by omega) hc (zipWith_min_le (by simp)), capped]

end Capacity

section Proportional

theorem remainderOrder_isLE : (fun a b => (remainderOrder a b).isLE) = ranksBefore := by
  funext a b
  simp only [remainderOrder, ranksBefore, Nat.compare_eq_ite_lt]
  split_ifs <;> simp <;> omega

theorem insertionSort_remainders (rems : List ℕ) :
    (rems.zipIdx.insertionSort fun a b => (remainderOrder a b).isLE) = ranking rems := by
  rw [ranking, ← remainderOrder_isLE]

theorem modify_add_one (h : alloc.sum + 1 < 2 ^ 32) :
    alloc.modify i (Word.add 32 · 1) = alloc.modify i (· + 1) := by
  refine List.ext_getElem (by simp) fun j hj hj' => ?_
  have hle := List.single_le_sum (fun _ _ => Nat.zero_le _) _
    (List.getElem_mem (by simpa using hj : j < alloc.length))
  simp only [List.getElem_modify]
  rw [Word.add_eq (by omega)]

theorem handOut_eq (h : alloc.sum + k < 2 ^ 32) (hi : ∀ p ∈ rems, p.2 < alloc.length) :
    handOut k rems alloc = bump ((rems.take k).map Prod.snd) alloc := by
  induction rems generalizing k alloc
  case nil => simp [handOut]
  case cons p rems ih =>
    rw [handOut]
    split
    case isTrue h0 => simp [h0]
    case isFalse h0 =>
      obtain ⟨k, rfl⟩ := Nat.exists_eq_succ_of_ne_zero h0
      have hs := sum_modify_succ (hi p (by simp))
      rw [modify_add_one (by omega), Word.sub_eq (by omega) (by omega), Nat.succ_sub_one,
        ih (by omega) (fun q hq => by simpa using hi q (by simp [hq]))]
      simp

theorem proportionalSplit_of_sum_eq_zero (h : weights.sum = 0) :
    proportionalSplit total weights = evenCounts total weights.length := by
  have hs : Word.sum 64 weights = 0 := by rw [Word.sum_eq (by omega), h]
  simp only [proportionalSplit, hs]
  split <;> simp_all [evenCounts, Word.cast]

theorem mul_weight_lt (ht : total < 2 ^ 32) (hw : ∀ w ∈ weights, w < 2 ^ 32) :
    ∀ w ∈ weights, total * w < 2 ^ 64 := by
  intro w hm
  have hlt := hw w hm
  calc total * w ≤ (2 ^ 32 - 1) * (2 ^ 32 - 1) := Nat.mul_le_mul (by omega) (by omega)
    _ < 2 ^ 64 := by omega

theorem weights_sum_lt (hl : weights.length < 2 ^ 32) (hw : ∀ w ∈ weights, w < 2 ^ 32) :
    weights.sum < 2 ^ 64 := by
  have hs := List.sum_le_card_nsmul weights (2 ^ 32) fun w hm => (hw w hm).le
  rw [smul_eq_mul] at hs
  omega

theorem map_quotas : (weights.map (total * ·)).map (· / weights.sum) = quotas total weights :=
  List.map_map

theorem quota_lt (ht : total < 2 ^ 32) (h0 : 0 < weights.sum) :
    ∀ num ∈ weights.map (total * ·), num / weights.sum < 2 ^ 32 := by
  intro num hm
  have hle := List.single_le_sum (fun _ _ => Nat.zero_le _) _
    (List.mem_map_of_mem (f := (· / weights.sum)) hm)
  rw [map_quotas] at hle
  exact (hle.trans (quotas_sum_le total h0)).trans_lt ht

theorem map_remainders :
    (weights.map (total * ·)).map (· % weights.sum) = remainders total weights :=
  List.map_map

theorem ranking_lt :
    ∀ p ∈ ranking (remainders total weights), p.2 < (quotas total weights).length := by
  intro p hp
  have hl := ranking_map_snd_perm (remainders total weights) |>.mem_iff.mp (List.mem_map_of_mem hp)
  simpa [quotas, remainders] using hl

-- The sum of the weights is held in a u64, each weight in a u32.
theorem proportionalSplit_handOut (ht : total < 2 ^ 32) (h0 : 0 < weights.sum)
    (hsum : weights.sum < 2 ^ 64) (hw : ∀ w ∈ weights, w < 2 ^ 32) :
    proportionalSplit total weights =
      handOut (total - (quotas total weights).sum) (ranking (remainders total weights))
        (quotas total weights) := by
  have hn : weights.length ≠ 0 := fun h => by simp [List.eq_nil_of_length_eq_zero h] at h0
  have hs : Word.sum 64 weights = weights.sum := Word.sum_eq hsum
  have hq := quotas_sum_le total h0
  have hm : weights.map (Word.mul 64 total ·) = weights.map (total * ·) :=
    List.map_congr_left fun w hm => Word.mul_eq (mul_weight_lt ht hw w hm)
  have hc : (weights.map (total * ·)).map (Word.cast 32 <| · / weights.sum) =
      quotas total weights :=
    (List.map_congr_left fun num hm => Word.cast_eq (quota_lt ht h0 num hm)).trans map_quotas
  simp only [proportionalSplit, hs, if_neg hn, if_neg h0.ne', hm, hc, map_quotas, map_remainders,
    insertionSort_remainders]
  rw [Word.sum_eq (hq.trans_lt (by omega)), Word.sub_eq hq (by omega)]

theorem proportionalSplit_exact (ht : total < 2 ^ 32) (h0 : 0 < weights.sum)
    (hsum : weights.sum < 2 ^ 64) (hw : ∀ w ∈ weights, w < 2 ^ 32) :
    proportionalSplit total weights = largestRemainder total weights := by
  have hq := quotas_sum_le total h0
  rw [proportionalSplit_handOut ht h0 hsum hw, handOut_eq (by omega) ranking_lt]
  rfl

theorem proportionalSplit_eq (ht : total < 2 ^ 32) (h0 : 0 < weights.sum)
    (hw : weights.sum < 2 ^ 32) :
    proportionalSplit total weights = largestRemainder total weights :=
  proportionalSplit_exact ht h0 (by omega) fun _ hm =>
    (List.single_le_sum (fun _ _ => Nat.zero_le _) _ hm).trans_lt hw

theorem proportionalSplit_sum (ht : total < 2 ^ 32) (hn : weights ≠ [])
    (hl : weights.length < 2 ^ 32) (hw : weights.sum < 2 ^ 32) :
    (proportionalSplit total weights).sum = total := by
  cases Nat.eq_zero_or_pos weights.sum
  case inl h0 =>
    rw [proportionalSplit_of_sum_eq_zero h0, evenCounts_eq ht hl,
      evenShares_sum total (List.length_pos_of_ne_nil hn)]
  case inr h0 => rw [proportionalSplit_eq ht h0 hw, largestRemainder_sum h0]

theorem proportionalSplit_length (ht : total < 2 ^ 32) (hl : weights.length < 2 ^ 32)
    (hw : weights.sum < 2 ^ 32) : (proportionalSplit total weights).length = weights.length := by
  cases Nat.eq_zero_or_pos weights.sum
  case inl h0 => rw [proportionalSplit_of_sum_eq_zero h0, evenCounts_eq ht hl, evenShares_length]
  case inr h0 => rw [proportionalSplit_eq ht h0 hw, largestRemainder_length]

-- The base of one for each worker is added to a split of what remains.
theorem proportionalSplitMin1_exact (ht : total < 2 ^ 32) (h0 : 0 < weights.sum)
    (hsum : weights.sum < 2 ^ 64) (hw : ∀ w ∈ weights, w < 2 ^ 32) (hn : weights.length ≤ total) :
    proportionalSplitMin1 total weights =
      (largestRemainder (total - weights.length) weights).map (· + 1) := by
  have hl : weights.length ≠ 0 := fun h => by simp [List.eq_nil_of_length_eq_zero h] at h0
  have hs : Word.sum 64 weights = weights.sum := Word.sum_eq hsum
  have hi : ¬(total < weights.length ∨ weights.sum = 0) := by omega
  simp only [proportionalSplitMin1, hs, if_neg hl, if_neg hi]
  rw [Word.cast_eq (by omega), Word.sub_eq hn ht, proportionalSplit_exact (by omega) h0 hsum hw]
  refine List.map_congr_left fun x hx => Word.add_eq ?_
  have hle := List.single_le_sum (fun _ _ => Nat.zero_le _) _ hx
  rw [largestRemainder_sum h0] at hle
  omega

theorem proportionalSplitMin1_eq (ht : total < 2 ^ 32) (h0 : 0 < weights.sum)
    (hw : weights.sum < 2 ^ 32) (hn : weights.length ≤ total) :
    proportionalSplitMin1 total weights =
      (largestRemainder (total - weights.length) weights).map (· + 1) :=
  proportionalSplitMin1_exact ht h0 (by omega) (fun _ hm =>
    (List.single_le_sum (fun _ _ => Nat.zero_le _) _ hm).trans_lt hw) hn

theorem proportionalSplitMin1_sum (ht : total < 2 ^ 32) (h0 : 0 < weights.sum)
    (hw : weights.sum < 2 ^ 32) (hn : weights.length ≤ total) :
    (proportionalSplitMin1 total weights).sum = total := by
  rw [proportionalSplitMin1_eq ht h0 hw hn, largestRemainder_succ_sum h0 hn]

theorem proportionalSplitMin1_pos (ht : total < 2 ^ 32) (h0 : 0 < weights.sum)
    (hw : weights.sum < 2 ^ 32) (hn : weights.length ≤ total) :
    ∀ x ∈ proportionalSplitMin1 total weights, 1 ≤ x := by
  rw [proportionalSplitMin1_eq ht h0 hw hn]
  simp

end Proportional

end Shard
