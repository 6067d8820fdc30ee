import Handicap.Shard.Checked
import Handicap.Shard.Theorems

-- Without an overflow the checked splitters have the results of the plain ones, and these are
-- capped and proportional distributions of the total.
namespace Shard

open Apportionment Word

variable {totalVus total n i k : ℕ} {caps weights alloc : List ℕ} {rems : List (ℕ × ℕ)}

theorem mapM_eq_map {f : ℕ → Option ℕ} {g : ℕ → ℕ} {l : List ℕ} (h : ∀ a ∈ l, f a = some (g a)) :
    l.mapM f = some (l.map g) := by
  induction l
  case nil => rfl
  case cons a l ih =>
    rw [List.mapM_cons, h a (by simp), ih fun b hb => h b (by simp [hb])]
    rfl

section Even

theorem checked_shardSplit (ht : totalVus < 2 ^ 32) (hi : i < n) :
    Checked.shardSplit totalVus n i = some (shardSplit totalVus n i) := by
  have hle := evenOffset_add_evenShare_le totalVus hi
  rw [shardSplit_eq ht hi]
  simp only [Checked.shardSplit, evenOffset, evenShare] at hle ⊢
  generalize totalVus / n = base at hle ⊢
  generalize (if i < totalVus % n then 1 else 0) = extra at hle ⊢
  rw [checkedMul_eq (by omega), checkedAdd_eq (by omega)]
  simp only [Option.bind_eq_bind, Option.bind_some]
  rw [checkedAdd_eq (by omega)]
  rfl

theorem checked_evenCounts (ht : totalVus < 2 ^ 32) (hn : n < 2 ^ 32) :
    Checked.evenCounts totalVus n = some (evenCounts totalVus n) := by
  simp only [Checked.evenCounts, checkedCast_eq hn, evenCounts, Word.cast_eq hn]
  refine mapM_eq_map fun i hi => ?_
  rw [checked_shardSplit ht (List.mem_range.mp hi)]
  rfl

end Even

section Capacity

theorem checked_reclaim (overflow : ℕ) (h : overflow + alloc.sum < 2 ^ 32) :
    Checked.reclaim overflow alloc caps = some (reclaim overflow alloc caps) := by
  induction alloc generalizing overflow caps
  case nil => cases caps <;> rfl
  case cons a alloc ih =>
    cases caps
    case nil => rfl
    case cons c caps =>
      rw [List.sum_cons] at h
      simp only [Checked.reclaim, reclaim]
      split
      case isTrue hc =>
        rw [checkedSub_eq hc.le, Word.sub_eq hc.le (by omega)]
        simp only [Option.bind_eq_bind, Option.bind_some]
        rw [checkedAdd_eq (by omega), Word.add_eq (by omega), Option.bind_some, ih _ (by omega)]
        rfl
      case isFalse hc =>
        rw [ih _ (by omega)]
        rfl

theorem checked_redistribute (overflow : ℕ) (h : overflow + alloc.sum < 2 ^ 32)
    (hc : ∀ c ∈ caps, c < 2 ^ 32) (hle : List.Forall₂ (· ≤ ·) alloc (caps.map (max · 1))) :
    Checked.redistribute overflow alloc caps = some (redistribute overflow alloc caps) := by
  induction alloc generalizing overflow caps
  case nil => cases caps <;> rfl
  case cons a alloc ih =>
    cases caps
    case nil => cases hle
    case cons c caps =>
      rw [List.map_cons, List.forall₂_cons] at hle
      rw [List.sum_cons] at h
      have hcap := hc c (by simp)
      simp only [Checked.redistribute, redistribute]
      split
      case isTrue h0 => rfl
      case isFalse h0 =>
        rw [checkedSub_eq hle.left, Word.sub_eq hle.left (by omega)]
        simp only [Option.bind_eq_bind, Option.bind_some]
        rw [checkedAdd_eq (by omega), Word.add_eq (by omega), Option.bind_some,
          checkedSub_eq (min_le_right _ _), Word.sub_eq (min_le_right _ _) (by omega),
          Option.bind_some, ih _ (by omega) (fun c hm => hc c (by simp [hm])) hle.right]
        rfl

theorem checked_capacitySplit (ht : totalVus < 2 ^ 32) (hn : caps.length < 2 ^ 32)
    (hc : ∀ c ∈ caps, c < 2 ^ 32) :
    Checked.capacitySplit totalVus caps = some (capacitySplit totalVus caps) := by
  simp only [Checked.capacitySplit, capacitySplit]
  split
  case isTrue h0 => rfl
  case isFalse h0 =>
    have hsum := evenShares_sum totalVus (Nat.pos_of_ne_zero h0)
    have hl : (evenShares totalVus caps.length).length = (caps.map (max · 1)).length := by simp
    have hex := zipWith_min_sum_add_excess hl
    rw [checked_evenCounts ht hn, evenCounts_eq ht hn]
    simp only [Option.bind_eq_bind, Option.bind_some]
    rw [checked_reclaim 0 (by omega), reclaim_eq 0 (by omega) (by simp)]
    simp only [Nat.zero_add, Option.bind_some]
    exact checked_redistribute _ (by omega) hc (zipWith_min_le (by simp))

-- The result is an exact distribution up to the caps, and every operation on the way is exact.
theorem capacitySplit_distributes (ht : totalVus < 2 ^ 32) (hn : caps.length < 2 ^ 32)
    (hc : ∀ c ∈ caps, c < 2 ^ 32) :
    Checked.capacitySplit totalVus caps = some (capacitySplit totalVus caps) ∧
    (capacitySplit totalVus caps).length = caps.length ∧
    List.Forall₂ (fun share cap => share ≤ max cap 1) (capacitySplit totalVus caps) caps ∧
    (capacitySplit totalVus caps).sum = min totalVus (caps.map (max · 1)).sum ∧
    ((∀ i (hi : i < caps.length), (shardSplit totalVus caps.length i).2 ≤ max caps[i] 1) →
      capacitySplit totalVus caps =
        (List.range caps.length).map fun i => (shardSplit totalVus caps.length i).2) := by
  have hl : (evenShares totalVus caps.length).length = (caps.map (max · 1)).length := by simp
  refine ⟨checked_capacitySplit ht hn hc, capacitySplit_length totalVus hn, ?_, ?_, fun h => ?_⟩
  case refine_1 =>
    rw [capacitySplit_eq ht hn hc]
    simpa using capped_le hl
  case refine_2 =>
    rw [capacitySplit_eq ht hn hc, capped_sum hl]
    cases Nat.eq_zero_or_pos caps.length
    case inl h0 => simp [List.eq_nil_of_length_eq_zero h0, evenShares]
    case inr h0 => rw [evenShares_sum totalVus h0]
  case refine_3 =>
    rw [capacitySplit_eq ht hn hc, capped_of_le, map_shardSplit ht]
    refine List.forall₂_iff_get.mpr ⟨hl, fun i hi hi' => ?_⟩
    have hi : i < caps.length := by simpa using hi
    have hle := h i hi
    rw [shardSplit_eq ht hi] at hle
    simpa [evenShares] using hle

theorem capacitySplit_distributes_small :
    Checked.capacitySplit 10 [3, 0, 9] = some (capacitySplit 10 [3, 0, 9]) ∧
    (capacitySplit 10 [3, 0, 9]).length = 3 ∧
    List.Forall₂ (fun share cap => share ≤ max cap 1) (capacitySplit 10 [3, 0, 9]) [3, 0, 9] ∧
    (capacitySplit 10 [3, 0, 9]).sum = min 10 ([3, 0, 9].map (max · 1)).sum ∧
    ((∀ i (hi : i < [3, 0, 9].length), (shardSplit 10 3 i).2 ≤ max [3, 0, 9][i] 1) →
      capacitySplit 10 [3, 0, 9] = (List.range 3).map fun i => (shardSplit 10 3 i).2) :=
  capacitySplit_distributes (by decide) (by decide) (by decide)

end Capacity

section Proportional

theorem checked_handOut (h : alloc.sum + k < 2 ^ 32) (hi : ∀ p ∈ rems, p.2 < alloc.length) :
    Checked.handOut k rems alloc = some (handOut k rems alloc) := by
  induction rems generalizing k alloc
  case nil => rfl
  case cons p rems ih =>
    simp only [Checked.handOut, handOut]
    split
    case isTrue h0 => rfl
    case isFalse h0 =>
      have hp := hi p (by simp)
      have hle := List.single_le_sum (fun _ _ => Nat.zero_le _) _ (List.getElem_mem hp)
      have hs := sum_modify_succ hp
      have hset : alloc.set p.2 (alloc[p.2] + 1) = alloc.modify p.2 (· + 1) := by
        refine List.ext_getElem (by simp) fun j hj hj' => ?_
        rw [List.getElem_set, List.getElem_modify]
        split <;> simp_all
      rw [modify_add_one (by omega), List.getElem?_eq_getElem hp, Word.sub_eq (by omega) (by omega)]
      simp only [Option.bind_eq_bind, Option.bind_some]
      rw [checkedAdd_eq (by omega), Option.bind_some, checkedSub_eq (by omega), Option.bind_some,
        hset]
      exact ih (by omega) fun q hq => by simpa using hi q (by simp [hq])

theorem checked_proportionalSplit (ht : total < 2 ^ 32) (h0 : 0 < weights.sum)
    (hsum : weights.sum < 2 ^ 64) (hw : ∀ w ∈ weights, w < 2 ^ 32) :
    Checked.proportionalSplit total weights = some (proportionalSplit total weights) := by
  have hn : weights.length ≠ 0 := fun h => by simp [List.eq_nil_of_length_eq_zero h] at h0
  have hq := quotas_sum_le total h0
  have hm : weights.mapM (checkedMul 64 total ·) = some (weights.map (total * ·)) :=
    mapM_eq_map fun w hm => checkedMul_eq (mul_weight_lt ht hw w hm)
  have hc : (weights.map (total * ·)).mapM (checkedCast 32 <| · / weights.sum) =
      some (quotas total weights) :=
    (mapM_eq_map fun num hm => checkedCast_eq (quota_lt ht h0 num hm)).trans
      (congrArg some map_quotas)
  have ha : checkedSum 64 (quotas total weights) = some (quotas total weights).sum :=
    checkedSum_eq (hq.trans_lt (by omega))
  rw [proportionalSplit_handOut ht h0 hsum hw]
  simp only [Checked.proportionalSplit, if_neg hn, checkedSum_eq hsum, Option.bind_eq_bind,
    Option.bind_some, if_neg h0.ne', hm, hc, map_quotas, map_remainders, ha, checkedSub_eq hq,
    insertionSort_remainders]
  exact checked_handOut (by omega) ranking_lt

theorem checked_proportionalSplitMin1 (ht : total < 2 ^ 32) (h0 : 0 < weights.sum)
    (hsum : weights.sum < 2 ^ 64) (hw : ∀ w ∈ weights, w < 2 ^ 32) :
    Checked.proportionalSplitMin1 total weights = some (proportionalSplitMin1 total weights) := by
  have hl : weights.length ≠ 0 := fun h => by simp [List.eq_nil_of_length_eq_zero h] at h0
  simp only [Checked.proportionalSplitMin1, proportionalSplitMin1, if_neg hl, checkedSum_eq hsum,
    Word.sum_eq hsum, Option.bind_eq_bind, Option.bind_some]
  split
  case isTrue hi => exact checked_proportionalSplit ht h0 hsum hw
  case isFalse hi =>
    have hn : weights.length ≤ total := by omega
    have hs := @largestRemainder_sum weights (total - weights.length) h0
    rw [checkedCast_eq (by omega), Option.bind_some, checkedSub_eq hn, Option.bind_some,
      checked_proportionalSplit (by omega) h0 hsum hw, Option.bind_some, Word.cast_eq (by omega),
      Word.sub_eq hn ht, proportionalSplit_exact (by omega) h0 hsum hw]
    refine mapM_eq_map fun x hx => ?_
    have hle := List.single_le_sum (fun _ _ => Nat.zero_le _) _ hx
    rw [checkedAdd_eq (by omega), Word.add_eq (by omega)]

-- Each share is the exact proportion rounded down or up, no operation overflows, and the variant
-- with a least share of one divides the same total.
theorem proportionalSplit_apportions (ht : total < 2 ^ 32) (hn : weights.length < 2 ^ 32)
    (hw : ∀ w ∈ weights, w < 2 ^ 32) (h0 : 0 < weights.sum) :
    Checked.proportionalSplit total weights = some (proportionalSplit total weights) ∧
    Checked.proportionalSplitMin1 total weights = some (proportionalSplitMin1 total weights) ∧
    (proportionalSplit total weights).sum = total ∧
    List.Forall₂ (fun share w =>
        (share = total * w / weights.sum ∨ share = (total * w) ⌈/⌉ weights.sum) ∧
        (w = 0 → share = 0))
      (proportionalSplit total weights) weights ∧
    (∀ i j x y v w : ℕ, (proportionalSplit total weights)[i]? = some x →
      (proportionalSplit total weights)[j]? = some y → weights[i]? = some v →
      weights[j]? = some w → (w < v ∨ w = v ∧ i < j) → y ≤ x) ∧
    ((∀ v ∈ weights, ∀ w ∈ weights, v = w) → proportionalSplit total weights =
      (List.range weights.length).map fun i => (shardSplit total weights.length i).2) ∧
    (weights.length ≤ total → (proportionalSplitMin1 total weights).length = weights.length ∧
      (proportionalSplitMin1 total weights).sum = total ∧
      ∀ x ∈ proportionalSplitMin1 total weights, 1 ≤ x) := by
  have hsum := weights_sum_lt hn hw
  have he := proportionalSplit_exact ht h0 hsum hw
  refine ⟨checked_proportionalSplit ht h0 hsum hw, checked_proportionalSplitMin1 ht h0 hsum hw,
    ?_, ?_, ?_, ?_, fun hle => ?_⟩
  case refine_1 => rw [he, largestRemainder_sum h0]
  case refine_2 =>
    rw [he]
    have hr := List.forall₂_iff_get.mp (largestRemainder_rounds total h0)
    refine List.forall₂_iff_get.mpr ⟨hr.left, fun i hi hi' => ⟨hr.right i hi hi', fun hz => ?_⟩⟩
    have hz := List.getElem?_eq_some_iff.mpr ⟨hi', hz⟩
    have hg := @largestRemainder_zero_weight weights total i hz h0
    exact (List.getElem?_eq_some_iff.mp hg).choose_spec
  case refine_3 =>
    intro i j x y v w hx hy hv hw h
    rw [he] at hx hy
    exact largestRemainder_mono h0 hx hy hv hw h
  case refine_4 =>
    intro hu
    rw [he, map_shardSplit ht]
    obtain ⟨w, hm, hpos⟩ := List.exists_mem_ne_zero_of_sum_ne_zero h0.ne'
    have hrep := List.eq_replicate_of_mem fun v hv => hu v hv w hm
    calc largestRemainder total weights
        = largestRemainder total (List.replicate weights.length w) := congrArg _ hrep
      _ = evenShares total weights.length :=
        largestRemainder_replicate (Nat.pos_of_ne_zero hpos)
  case refine_5 =>
    rw [proportionalSplitMin1_exact ht h0 hsum hw hle]
    exact ⟨by simp, largestRemainder_succ_sum h0 hle, by simp⟩

theorem proportionalSplit_apportions_small :
    Checked.proportionalSplit 7 [1, 0, 2] = some (proportionalSplit 7 [1, 0, 2]) ∧
      (proportionalSplit 7 [1, 0, 2]).sum = 7 :=
  have h := @proportionalSplit_apportions 7 [1, 0, 2] (by decide) (by decide) (by decide) (by decide)
  ⟨h.left, h.right.right.left⟩

end Proportional

end Shard
