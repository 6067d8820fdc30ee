import Handicap.Api.Launch
import Handicap.Api.Theorems.Validate
import Handicap.Coordinator.Theorems.Pool
import Handicap.Coordinator.Theorems.Slots

open Store Coordinator Tiling Apportionment

namespace Api

namespace Load

variable {p : Profile}

theorem demand_pos (l : Load p) : 1 ≤ p.concurrencyDemand.val := by
  cases l
  case vuCurve hc _ _ hpos => simpa [Profile.concurrencyDemand, hc] using hpos
  case fixed m rps hc _ hm hr hpos _ _ =>
    simpa [Profile.concurrencyDemand, hc, Profile.isOpenLoop, hm, hr] using hpos
  case rateCurve m hc hs hm _ hpos _ _ =>
    simpa [Profile.concurrencyDemand, hc, Profile.isOpenLoop, hs, hm] using hpos
  case closed hc ho hpos => simpa [Profile.concurrencyDemand, hc, ho] using hpos

-- Neither dispatching nor reserving takes more workers than there are slots, or requests per second
-- at a fixed rate.
theorem poolWorkerCap_le : p.poolWorkerCap.val ≤ p.concurrencyDemand.val := by
  rw [Profile.poolWorkerCap, Profile.concurrencyDemand]
  split_ifs
  case pos => exact le_rfl
  case pos => exact min_le_left (p.maxInFlight.getD 1) p.ratePeak
  case neg => exact le_rfl

theorem poolWorkerCap_le_rps (l : Load p) {rps : U32} (h : p.targetRps = some rps) :
    p.poolWorkerCap.val ≤ rps.val := by
  cases l
  case vuCurve _ hr _ _ => rw [h] at hr; cases hr
  case rateCurve _ _ _ _ hr _ _ _ => rw [h] at hr; cases hr
  case closed _ ho _ => simp [Profile.isOpenLoop, h] at ho
  case fixed m _ hc _ hm _ _ _ _ =>
    simp only [Profile.poolWorkerCap, hc, Profile.isOpenLoop, h, Profile.ratePeak]
    exact min_le_right (p.maxInFlight.getD 1) rps

theorem fanoutWorkerCount_pos (l : Load p) (capacity : ℕ) :
    1 ≤ fanoutWorkerCount p capacity := by
  rw [fanoutWorkerCount]
  split_ifs with hc ho
  case pos => exact Shard.workerCount_pos
  case neg => exact Shard.workerCount_pos
  case pos =>
    cases hw : p.workerCount
    case none => simp
    case some w =>
      cases l
      case vuCurve hc' _ _ _ => exact absurd hc' hc
      case closed _ ho' _ => exact absurd ho ho'
      case fixed h => exact (h w hw).left
      case rateCurve h => exact (h w hw).left

theorem fanoutWorkerCount_le (l : Load p) (capacity : ℕ) :
    fanoutWorkerCount p capacity ≤ p.concurrencyDemand := by
  have hd := l.demand_pos
  cases l
  case vuCurve hc _ _ hpos =>
    simpa [fanoutWorkerCount, Profile.concurrencyDemand, hc] using Shard.workerCount_le hpos
  case closed hc ho hpos =>
    simpa [fanoutWorkerCount, Profile.concurrencyDemand, hc, ho] using Shard.workerCount_le hpos
  case fixed m rps hc _ hm hr hpos _ h =>
    simp only [fanoutWorkerCount, Profile.concurrencyDemand, hc, Profile.isOpenLoop, hr, hm]
    cases hw : p.workerCount
    case none => simpa using hpos
    case some w => simpa using (h w hw).right.left
  case rateCurve m hc hs hm hr hpos _ h =>
    simp only [fanoutWorkerCount, Profile.concurrencyDemand, hc, Profile.isOpenLoop, hs, hm]
    cases hw : p.workerCount
    case none => simpa using hpos
    case some w => simpa using (h w hw).right

theorem fanoutWorkerCount_le_rps (l : Load p) (capacity : ℕ) {rps : U32}
    (h : p.targetRps = some rps) : fanoutWorkerCount p capacity ≤ rps := by
  cases l
  case vuCurve _ hr _ _ => rw [h] at hr; cases hr
  case rateCurve _ _ _ _ hr _ _ _ => rw [h] at hr; cases hr
  case closed _ ho _ => simp [Profile.isOpenLoop, h] at ho
  case fixed m _ hc _ hm hr _ hpos hw =>
    obtain rfl := Option.some.inj (h.symm.trans hr)
    simp only [fanoutWorkerCount, hc, Profile.isOpenLoop, h]
    cases hc : p.workerCount
    case none => simpa using hpos
    case some w => simpa using (hw w hc).right.right

end Load

-- The shape of a run that the launcher enqueues: every worker has a share of the slots and, at a
-- fixed rate, of the requests.
structure Launched (l : Launch) (rw : RunWorkers) : Prop where
  base     : rw.base = l.assignment
  totalVus : rw.totalVus = l.profile.concurrencyDemand
  pos      : 1 ≤ rw.expected
  le_total : rw.expected ≤ rw.totalVus
  le_rps   : ∀ rps, l.profile.targetRps = some rps → rw.expected ≤ rps
  tile     : Tiles 0 rw.totalVus rw.slots
  slot_pos : ∀ s ∈ rw.slots, 1 ≤ s.2

namespace Launched

variable {l : Launch} {n : ℕ}

theorem of_even (hpos : 1 ≤ n) (hle : n ≤ l.profile.concurrencyDemand)
    (hrps : ∀ rps, l.profile.targetRps = some rps → n ≤ rps) : Launched l (l.enqueued n none) where
  base     := rfl
  totalVus := rfl
  pos      := hpos
  le_total := hle
  le_rps   := hrps
  tile     := RunWorkers.slots_tile (fun _ h => nomatch h) hpos
  slot_pos := by
    intro s hs
    rw [RunWorkers.slots_of_none rfl] at hs
    obtain ⟨i, hi, rfl⟩ := List.mem_map.mp hs
    exact evenShare_pos (List.mem_range.mp hi) hle

theorem slots_enqueued {counts : Vector (ℕ × ℕ) n} :
    (l.enqueued n (some counts)).slots = counts.toList :=
  RunWorkers.slots_of_counts rfl

theorem of_counts {counts : Vector (ℕ × ℕ) n} (hpos : 1 ≤ n)
    (hle : n ≤ l.profile.concurrencyDemand)
    (hrps : ∀ rps, l.profile.targetRps = some rps → n ≤ rps)
    (ht : Tiles 0 l.profile.concurrencyDemand counts.toList) (hc : ∀ c ∈ counts.toList, 1 ≤ c.2) :
    Launched l (l.enqueued n (some counts)) where
  base     := rfl
  totalVus := rfl
  pos      := hpos
  le_total := hle
  le_rps   := hrps
  tile     := slots_enqueued.symm ▸ ht
  slot_pos := slots_enqueued.symm ▸ hc

end Launched

theorem Launch.Enqueues.launched {settings : Settings} {pool : Pool} {l : Launch}
    {rw : RunWorkers} (load : Load l.profile) (e : l.Enqueues settings pool rw) :
    Launched l rw := by
  cases e
  case fanOut =>
    exact .of_even (load.fanoutWorkerCount_pos _) (load.fanoutWorkerCount_le _)
      fun _ => load.fanoutWorkerCount_le_rps _
  case force order reserved h hne =>
    have hle : reserved.length ≤ l.profile.poolWorkerCap := h ▸ Pool.reserveIdlePool_length_le _ _
    exact .of_even (List.length_pos_of_ne_nil hne) (hle.trans Load.poolWorkerCap_le)
      fun _ hr => hle.trans (load.poolWorkerCap_le_rps hr)
  case pool workers counts h hne =>
    obtain ⟨hw, hc, ha⟩ := Pool.reserved_eq h hne
    have hlen : workers.length = (pool.candidates l.profile.poolWorkerCap).length := by simp [hw]
    have hle : workers.length ≤ l.profile.poolWorkerCap := hlen ▸ Pool.candidates_length_le
    have hle' := hle.trans Load.poolWorkerCap_le
    exact .of_counts (List.length_pos_of_ne_nil hne) hle'
      (fun _ hr => hle.trans (load.poolWorkerCap_le_rps hr)) (hc ▸ Pool.slices_tile ha)
      (hc ▸ Pool.slices_pos (hlen ▸ hle') ha)

end Api
