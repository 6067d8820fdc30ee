import Handicap.Coordinator.Run
import Handicap.Shard.Theorems

open Tiling Apportionment

namespace Coordinator.RunWorkers

variable {rw : RunWorkers}

theorem shard_lt (rw : RunWorkers) (i : Fin rw.expected) : i < rw.expected :=
  i.isLt

-- The VU offsets and VU counts of all shards, in shard order.
def slots (rw : RunWorkers) : List (ℕ × ℕ) :=
  List.ofFn fun i : Fin rw.expected => rw.slot i (shard_lt rw i)

-- Precomputed counts are contiguous and sum to the total.
def Counted (rw : RunWorkers) : Prop :=
  ∀ counts, rw.precomputedCounts = some counts → Tiles 0 rw.totalVus counts.toList

@[simp]
theorem slots_length : rw.slots.length = rw.expected := by
  simp [slots]

theorem slots_getElem (i : ℕ) (h : i < rw.slots.length) :
    rw.slots[i] = rw.slot i (slots_length ▸ h) := by
  simp [slots]

theorem slots_of_counts {counts : Vector (ℕ × ℕ) rw.expected}
    (h : rw.precomputedCounts = some counts) : rw.slots = counts.toList := by
  refine List.ext_getElem (by simp) fun i hi hi' => ?_
  simp [slots_getElem, slot, slotOf, h]

theorem slot_of_none (h : rw.precomputedCounts = none) (i : ℕ) (hi : i < rw.expected) :
    rw.slot i hi =
      (evenOffset rw.totalVus rw.expected i, evenShare rw.totalVus rw.expected i) := by
  simp only [slot, slotOf, h]
  exact Shard.shardSplit_eq rw.totalVus.isLt hi

theorem slots_of_none (h : rw.precomputedCounts = none) :
    rw.slots = (List.range rw.expected).map fun i =>
      (evenOffset rw.totalVus rw.expected i, evenShare rw.totalVus rw.expected i) := by
  refine List.ext_getElem (by simp) fun i hi hi' => ?_
  rw [slots_getElem, slot_of_none h, List.getElem_map, List.getElem_range]

theorem slots_tile (h : rw.Counted) (hn : 0 < rw.expected) : Tiles 0 rw.totalVus rw.slots := by
  cases hc : rw.precomputedCounts
  case none => exact slots_of_none hc ▸ evenShares_tiles _ hn
  case some counts => exact slots_of_counts hc ▸ h counts hc

end Coordinator.RunWorkers
