import Handicap.Coordinator.Theorems.Slots
import Mathlib.Algebra.BigOperators.Fin

open Store Tiling Apportionment

namespace Coordinator

theorem sum_getElem {n : ℕ} (l : List ℕ) (h : l.length = n) :
    ∑ i : Fin n, l[i] = l.sum := by
  subst h
  exact Fin.sum_univ_getElem l

namespace RunWorkers

variable {rw : RunWorkers} {split : ℕ → List ℕ → List ℕ} {t : U32}

-- The share of the shard of a total that is divided among the shards.
def share (rw : RunWorkers) (split : ℕ → List ℕ → List ℕ) (i : Fin rw.expected) (t : U32) : U32 :=
  shareOf split i rw.expected rw.slotWeights t

-- The shares of all shards.
def shares (rw : RunWorkers) (split : ℕ → List ℕ → List ℕ) (t : U32) : List ℕ :=
  match rw.slotWeights with
  | some w => split t w
  | none   => evenShares t rw.expected

theorem shares_of_weights {w : List ℕ} (h : rw.slotWeights = some w) :
    rw.shares split t = split t w := by
  simp only [shares, h]

theorem shares_of_no_weights (h : rw.slotWeights = none) :
    rw.shares split t = evenShares t rw.expected := by
  simp only [shares, h]

theorem weights_eq {w : List ℕ} (h : rw.slotWeights = some w) : w = rw.slots.map Prod.snd := by
  obtain ⟨counts, hc, rfl⟩ := Option.map_eq_some_iff.mp h
  rw [slots_of_counts hc]

theorem weights_sum (ht : Tiles 0 rw.totalVus rw.slots) {w : List ℕ} (h : rw.slotWeights = some w) :
    w.sum = rw.totalVus := by
  rw [weights_eq h, ← ht.sum, Nat.zero_add]

theorem weights_length {w : List ℕ} (h : rw.slotWeights = some w) : w.length = rw.expected := by
  rw [weights_eq h, List.length_map, slots_length]

theorem slots_of_no_weights (h : rw.slotWeights = none) :
    rw.slots.map Prod.snd = evenShares rw.totalVus rw.expected := by
  rw [slots_of_none (Option.map_eq_none_iff.mp h), List.map_map]
  rfl

-- The two splitters of a total among the shards of a run give every shard a share, and nothing is
-- left over.
structure Splits (rw : RunWorkers) (split : ℕ → List ℕ → List ℕ) (t : U32) : Prop where
  length : (rw.shares split t).length = rw.expected
  sum    : (rw.shares split t).sum = t

namespace Splits

theorem of_no_weights (hw : rw.slotWeights = none) (hn : 1 ≤ rw.expected) : rw.Splits split t where
  length := shares_of_no_weights hw ▸ evenShares_length
  sum    := shares_of_no_weights hw ▸ evenShares_sum _ hn

theorem of_weights {w : List ℕ} (hw : rw.slotWeights = some w)
    (hl : (split t w).length = w.length) (hs : (split t w).sum = t) : rw.Splits split t where
  length := shares_of_weights hw ▸ hl.trans (weights_length hw)
  sum    := shares_of_weights hw ▸ hs

theorem share_val (s : rw.Splits split t) (i : Fin rw.expected) :
    (rw.share split i t).val = (rw.shares split t).get (i.cast s.length.symm) := by
  have hi : i.val < (rw.shares split t).length := s.length.symm ▸ i.isLt
  have hle := List.single_le_sum (fun _ _ => Nat.zero_le _) _ (List.getElem_mem hi)
  have hlt : (rw.shares split t)[i.val] < 2 ^ 32 := hle.trans_lt (s.sum.symm ▸ t.isLt)
  simp only [share, shareOf, Fin.val_ofNat, List.get_eq_getElem, Fin.val_cast]
  cases hw : rw.slotWeights
  case some w =>
    have hs : rw.shares split t = split t w := shares_of_weights hw
    simp only [hs] at hi hlt ⊢
    rw [List.getElem?_eq_getElem hi, Option.getD_some]
    exact Nat.mod_eq_of_lt hlt
  case none =>
    have hs : rw.shares split t = evenShares t rw.expected := shares_of_no_weights hw
    simp only [hs, evenShares, List.getElem_map, List.getElem_range] at hlt ⊢
    rw [Shard.shardSplit_eq t.isLt i.isLt]
    exact Nat.mod_eq_of_lt hlt

theorem sum_share (s : rw.Splits split t) : ∑ i, (rw.share split i t).val = t := by
  simp only [s.share_val]
  exact (sum_getElem _ s.length).trans s.sum

theorem share_mem (s : rw.Splits split t) (i : Fin rw.expected) :
    (rw.share split i t).val ∈ rw.shares split t :=
  s.share_val i ▸ List.get_mem ..

end Splits

theorem splits_proportional (hn : 1 ≤ rw.expected) (ht : Tiles 0 rw.totalVus rw.slots)
    (hl : rw.expected ≤ rw.totalVus) : rw.Splits Shard.proportionalSplit t := by
  cases hw : rw.slotWeights
  case none => exact .of_no_weights hw hn
  case some w =>
    have htot := rw.totalVus.isLt
    have hlen := weights_length hw
    have hsum := weights_sum ht hw
    have hne : w ≠ [] := fun h => by simp [h] at hlen; omega
    exact .of_weights hw (Shard.proportionalSplit_length t.isLt (by omega) (by omega))
      (Shard.proportionalSplit_sum t.isLt hne (by omega) (by omega))

theorem splits_min1 (hn : 1 ≤ rw.expected) (ht : Tiles 0 rw.totalVus rw.slots)
    (hl : rw.expected ≤ rw.totalVus) (hle : rw.expected ≤ t) :
    rw.Splits Shard.proportionalSplitMin1 t := by
  cases hw : rw.slotWeights
  case none => exact .of_no_weights hw hn
  case some w =>
    have htot := rw.totalVus.isLt
    have hlen := weights_length hw
    have hsum := weights_sum ht hw
    refine .of_weights hw ?_
      (Shard.proportionalSplitMin1_sum t.isLt (by omega) (by omega) (by omega))
    rw [Shard.proportionalSplitMin1_eq t.isLt (by omega) (by omega) (by omega), List.length_map,
      largestRemainder_length]

theorem shares_min1_pos (hn : 1 ≤ rw.expected) (ht : Tiles 0 rw.totalVus rw.slots)
    (hl : rw.expected ≤ rw.totalVus) (hle : rw.expected ≤ t) :
    ∀ x ∈ rw.shares Shard.proportionalSplitMin1 t, 1 ≤ x := by
  intro x hx
  cases hw : rw.slotWeights
  case none =>
    rw [shares_of_no_weights hw] at hx
    obtain ⟨i, hi, rfl⟩ := List.mem_map.mp hx
    exact evenShare_pos (List.mem_range.mp hi) hle
  case some w =>
    have htot := rw.totalVus.isLt
    have hlen := weights_length hw
    have hsum := weights_sum ht hw
    rw [shares_of_weights hw] at hx
    exact Shard.proportionalSplitMin1_pos t.isLt (by omega) (by omega) (by omega) x hx

-- No shard gets more of a total than it has VUs, if the total is at most the number of all VUs.
theorem shares_proportional_le (hn : 1 ≤ rw.expected) (ht : Tiles 0 rw.totalVus rw.slots)
    (hl : rw.expected ≤ rw.totalVus) (hle : t ≤ rw.totalVus) :
    List.Forall₂ (· ≤ ·) (rw.shares Shard.proportionalSplit t) (rw.slots.map Prod.snd) := by
  cases hw : rw.slotWeights
  case none =>
    rw [shares_of_no_weights hw, slots_of_no_weights hw]
    simp only [evenShares, List.forall₂_map_left_iff, List.forall₂_map_right_iff]
    exact List.forall₂_same.mpr fun i hi => evenShare_mono (List.mem_range.mp hi) hle
  case some w =>
    have htot := rw.totalVus.isLt
    have hsum := weights_sum ht hw
    have hle' : t.val ≤ rw.totalVus := hle
    rw [shares_of_weights hw, ← weights_eq hw,
      Shard.proportionalSplit_eq t.isLt (by omega) (by omega)]
    exact largestRemainder_le (by omega) (by omega)

end RunWorkers

end Coordinator
