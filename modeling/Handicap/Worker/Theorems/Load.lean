import Handicap.Coordinator.Theorems.Stream
import Handicap.Worker.Load
import Mathlib.Algebra.Order.BigOperators.Group.List

open Store
open Pb (ServerMessage)

-- The batches among messages.
def Pb.ServerMessage.isBatch : ServerMessage → Bool
  | datasetBatch .. => true
  | _               => false

theorem Pb.ServerMessage.rowsFor_of_not_isBatch {m : ServerMessage} {i : ℕ}
    (h : m.isBatch = false) : m.rowsFor i = [] := by
  cases m <;> simp_all [isBatch, rowsFor]

theorem Pb.ServerMessage.flatMap_filter_isBatch (messages : List ServerMessage) (i : ℕ) :
    (messages.filter isBatch).flatMap (rowsFor i) = messages.flatMap (rowsFor i) := by
  induction messages
  case nil => rfl
  case cons m messages ih =>
    cases h : m.isBatch
    case true => simp [h, ih]
    case false => simp [h, ih, rowsFor_of_not_isBatch h]

namespace Worker

variable {runId : String} {total got i : ℕ} {buckets result : List (List StringMap)}
variable {inbound : List Inbound} {expected : List ℕ}

namespace Inbound

def message? : Inbound → Option ServerMessage
  | message m => some m
  | cancelled => none

-- The batches of an inbound stream, whatever else is between them.
def batches (inbound : List Inbound) : List ServerMessage :=
  (inbound.filterMap message?).filter ServerMessage.isBatch

end Inbound

-- The rows of one binding that the rest of a stream holds.
def rowsFor (i : ℕ) (inbound : List Inbound) : List StringMap :=
  (inbound.filterMap Inbound.message?).flatMap (ServerMessage.rowsFor i)

theorem rowsFor_eq_batches :
    rowsFor i inbound = (Inbound.batches inbound).flatMap (ServerMessage.rowsFor i) :=
  (ServerMessage.flatMap_filter_isBatch ..).symm

theorem rowsFor_cons (x : Inbound) :
    rowsFor i (x :: inbound) = rowsFor i [x] ++ rowsFor i inbound := by
  cases x
  case cancelled => rfl
  case message => simp [rowsFor, Inbound.message?]

-- What is put into the buckets is a beginning of what the stream holds for them.
structure Fills (inbound : List Inbound) (buckets result : List (List StringMap)) : Prop where
  length : result.length = buckets.length
  filled : ∀ i (h : i < buckets.length),
    ∃ rows, rows <+: rowsFor i inbound ∧ result[i]? = some (buckets[i] ++ rows)

namespace Fills

theorem refl : Fills inbound buckets buckets where
  length := rfl
  filled := fun i h => ⟨[], List.nil_prefix, by simp [h]⟩

theorem skip {x : Inbound} (f : Fills inbound buckets result)
    (h : ∀ i < buckets.length, rowsFor i [x] = []) : Fills (x :: inbound) buckets result where
  length := f.length
  filled := fun i hi => by
    have ⟨rows, hp, hr⟩ := f.filled i hi
    exact ⟨rows, by rwa [rowsFor_cons, h i hi, List.nil_append], hr⟩

theorem batch {id : String} {rows : List StringMap}
    (f : Fills inbound (buckets.modify i (· ++ rows)) result) :
    Fills (.message (.datasetBatch id rows i) :: inbound) buckets result where
  length := by simpa using f.length
  filled := fun j hj => by
    have ⟨more, hp, hr⟩ := f.filled j (by simpa using hj)
    rw [List.getElem_modify] at hr
    cases Decidable.em (i = j)
    case inl he =>
      refine ⟨rows ++ more, ?_, by simpa [he] using hr⟩
      simpa [rowsFor, Inbound.message?, ServerMessage.rowsFor, he] using hp
    case inr hne =>
      refine ⟨more, ?_, by simpa [hne] using hr⟩
      simpa [rowsFor, Inbound.message?, ServerMessage.rowsFor, hne] using hp

end Fills

theorem sum_length_modify (rows : List StringMap) (h : i < buckets.length) :
    ((buckets.modify i (· ++ rows)).map List.length).sum =
      (buckets.map List.length).sum + rows.length := by
  induction buckets generalizing i
  case nil => cases h
  case cons b buckets ih =>
    cases i
    case zero => simp; omega
    case succ i =>
      have ih := ih (Nat.lt_of_succ_lt_succ h)
      simp only [List.modify_succ_cons, List.map_cons, List.sum_cons, ih]
      omega

theorem fillBuckets_ok (h : fillBuckets runId total got buckets inbound = .ok result)
    (hg : got = (buckets.map List.length).sum) :
    Fills inbound buckets result ∧ total ≤ (result.map List.length).sum := by
  fun_induction fillBuckets runId total got buckets inbound
  case case1 h' =>
    cases h
    exact ⟨.refl, h'.trans hg.le⟩
  case case2 => cases h
  case case3 => cases h
  case case4 hi ih =>
    have ⟨f, hl⟩ := ih h (by rw [sum_length_modify _ hi, hg])
    exact ⟨f.batch, hl⟩
  case case5 hi ih =>
    have ⟨f, hl⟩ := ih h hg
    refine ⟨f.skip fun j hj => ?_, hl⟩
    have hne := Ne.symm (ne_of_lt (hj.trans_le (Nat.le_of_not_lt hi)))
    simp [rowsFor, Inbound.message?, ServerMessage.rowsFor, hne]
  case case6 => cases h
  case case7 ih =>
    have ⟨f, hl⟩ := ih h hg
    exact ⟨f.skip fun _ _ => rfl, hl⟩
  case case8 m _ hb _ ih =>
    have ⟨f, hl⟩ := ih h hg
    refine ⟨f.skip fun j _ => ?_, hl⟩
    have hm : m.rowsFor j = [] := by
      cases m
      case datasetBatch => exact (hb _ _ _ rfl).elim
      all_goals rfl
    simpa [rowsFor, Inbound.message?] using hm

theorem eq_of_le_of_sum_le {l l' : List ℕ} (h : List.Forall₂ (· ≤ ·) l l') (hs : l'.sum ≤ l.sum) :
    l = l' := by
  induction h
  case nil => rfl
  case cons a a' l l' ha h ih =>
    have hl := List.Forall₂.sum_le_sum h
    simp only [List.sum_cons] at hs
    rw [ih (by omega), show a = a' by omega]

-- The buckets have room for what is promised.
structure Allocates (expected : List ℕ) : Prop where
  each  : ∀ n ∈ expected, n * 24 < 2 ^ 63
  total : expected.sum < 2 ^ 64

theorem mapM_withCapacity (h : ∀ n ∈ expected, n * 24 < 2 ^ 63) :
    expected.mapM withCapacity = some (expected.map fun _ => []) := by
  induction expected
  case nil => rfl
  case cons n expected ih =>
    rw [List.forall_mem_cons] at h
    rw [List.mapM_cons, withCapacity, if_pos h.1, ih h.2]
    rfl

theorem mapM_withCapacity_eq_none {n : ℕ} (hn : n ∈ expected) (h : ¬n * 24 < 2 ^ 63) :
    expected.mapM withCapacity = none := by
  induction expected
  case nil => cases hn
  case cons m expected ih =>
    rw [List.mapM_cons]
    cases List.mem_cons.mp hn
    case inl he => rw [← he, withCapacity, if_neg h]; rfl
    case inr hn =>
      rw [ih hn]
      cases withCapacity m <;> rfl

theorem loadDatasets_eq (h : Allocates expected) :
    loadDatasets expected runId inbound =
      some (fillBuckets runId expected.sum 0 (expected.map fun _ => []) inbound) := by
  rw [loadDatasets, mapM_withCapacity h.each, Word.checkedSum_eq h.total]
  rfl

theorem loadDatasets_eq_none (h : ¬Allocates expected) :
    loadDatasets expected runId inbound = none := by
  by_cases he : ∀ n ∈ expected, n * 24 < 2 ^ 63
  case pos =>
    have ht : 2 ^ 64 ≤ expected.sum := not_lt.mp fun ht => h ⟨he, ht⟩
    rw [loadDatasets, mapM_withCapacity he, Word.checkedSum_eq_none ht]
    rfl
  case neg =>
    push Not at he
    obtain ⟨n, hn, hlt⟩ := he
    rw [loadDatasets, mapM_withCapacity_eq_none hn (not_lt.mpr hlt)]
    rfl

theorem allocates_of_eq_some {r : Except WorkerError (List (List StringMap))}
    (h : loadDatasets expected runId inbound = some r) : Allocates expected := by
  by_contra ha
  cases h.symm.trans (loadDatasets_eq_none ha)

-- If the stream holds at most what is promised, every bucket gets just what is promised and holds
-- all that the stream holds for it.
theorem loadDatasets_ok (h : loadDatasets expected runId inbound = some (.ok result))
    (hr : ∀ i (hi : i < expected.length), (rowsFor i inbound).length ≤ expected[i]) :
    result.length = expected.length ∧ ∀ i (hi : i < expected.length),
      result[i]? = some (rowsFor i inbound) ∧ (rowsFor i inbound).length = expected[i] := by
  have hz : 0 = ((expected.map fun _ => ([] : List StringMap)).map List.length).sum := by simp
  rw [loadDatasets_eq (allocates_of_eq_some h)] at h
  have ⟨f, hs⟩ := fillBuckets_ok (Option.some.inj h) hz
  have hl : result.length = expected.length := by simpa using f.length
  have hf : ∀ i (hi : i < expected.length),
      ∃ rows, rows <+: rowsFor i inbound ∧ result[i]? = some rows := by
    intro i hi
    simpa using f.filled i (by simpa using hi)
  have he : result.map List.length = expected := by
    refine eq_of_le_of_sum_le (List.forall₂_iff_get.mpr ⟨by simpa using hl, ?_⟩) hs
    intro i hi hi'
    have ⟨rows, hp, hi⟩ := hf i hi'
    have ⟨_, hi⟩ := List.getElem?_eq_some_iff.mp hi
    simp only [List.get_eq_getElem, List.getElem_map, hi]
    exact hp.length_le.trans (hr i hi')
  refine ⟨hl, fun i hi => ?_⟩
  have ⟨rows, hp, hres⟩ := hf i hi
  have hrows : rows.length = expected[i] := by
    have hi' := congrArg (·[i]?) he
    simpa [hres, hi] using hi'
  have heq := hp.eq_of_length_le (hrows ▸ hr i hi)
  exact ⟨heq ▸ hres, heq ▸ hrows⟩

end Worker
