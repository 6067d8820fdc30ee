import Handicap.Coordinator.Stream

open Store

-- The rows that messages carry for one binding.
namespace Pb.ServerMessage

def rowsFor (i : ℕ) : ServerMessage → List StringMap
  | datasetBatch _ rows j => if j = i then rows else []
  | _                     => []

end Pb.ServerMessage

namespace Coordinator

open Pb (ServerMessage)

-- The rows that a worker is to see of one binding.
def WorkerStream.slice (datasets : String → List StringMap) (ws : WorkerStream) : List StringMap :=
  (getRowsRange (datasets ws.datasetId) ws.offset ws.count).map (applyMappings ws.mappings)

variable {rows : List StringMap} {t : Transfer} {run : RunId} {ws : WorkerStream} {sent i : ℕ}
variable {datasets : String → List StringMap} {transfer : ℕ → Transfer}
variable {streams : List WorkerStream}

theorem WorkerStream.slice_length_le : (ws.slice datasets).length ≤ ws.count := by
  simp [slice, getRowsRange]

-- A batch is the beginning of what is left of the slice.
theorem take_eq_batch_append {α : Type*} (l : List α) {n m : ℕ} (h : n ≤ m) :
    l.take m = l.take n ++ (l.drop (l.take n).length).take (m - (l.take n).length) := by
  rw [← List.drop_take, List.length_take]
  have ht : l.take n = (l.take m).take (min n l.length) := by
    rw [List.take_take, min_eq_left (min_le_of_left_le h)]
    cases le_total n l.length
    case inl hl => rw [min_eq_left hl]
    case inr hl => rw [min_eq_right hl, List.take_length, List.take_of_length_le hl]
  rw [ht, List.take_append_drop]

theorem streamFrom_rowsFor_of_ne (h : ws.bindingIndex ≠ i) :
    (streamFrom rows t run ws sent).1.flatMap (·.rowsFor i) = [] := by
  fun_induction streamFrom rows t run ws sent
  case case1 => rfl
  case case2 => rfl
  case case3 hr ih =>
    rw [hr] at ih
    simpa [ServerMessage.rowsFor, h] using ih
  case case4 => rfl

-- The batches for the binding are, one after another, the slice or a beginning of it.
theorem streamFrom_rowsFor :
    (streamFrom rows t run ws sent).1.flatMap (·.rowsFor ws.bindingIndex) <+:
      (getRowsRange rows (ws.offset + sent) (ws.count - sent)).map (applyMappings ws.mappings) := by
  fun_induction streamFrom rows t run ws sent
  case case1 => simp [ServerMessage.rowsFor]
  case case2 => simp
  case case3 sent _ limit src _ _ messages complete hr ih =>
    rw [hr] at ih
    have hs := take_eq_batch_append (rows.drop (ws.offset + sent))
      (min_le_right datasetBatchRows (ws.count - sent))
    rw [List.drop_drop] at hs
    rw [Nat.sub_sub, Nat.add_assoc] at hs
    rw [getRowsRange, hs, List.map_append]
    simp only [List.flatMap_cons, ServerMessage.rowsFor, if_true]
    exact (List.prefix_append_right_inj _).mpr ih
  case case4 => simp

theorem streamDataset_rowsFor :
    (streamDataset rows t run ws).1.flatMap (·.rowsFor ws.bindingIndex) <+:
      (getRowsRange rows ws.offset ws.count).map (applyMappings ws.mappings) :=
  streamFrom_rowsFor

theorem streamDatasets_rowsFor_of_not_mem (datasets : String → List StringMap)
    (transfer : ℕ → Transfer) (run : RunId) (h : i ∉ streams.map (·.bindingIndex)) :
    (streamDatasets datasets transfer run streams).flatMap (·.rowsFor i) = [] := by
  induction streams
  case nil => rfl
  case cons ws streams ih =>
    rw [List.map_cons, List.mem_cons, not_or] at h
    have ih := ih h.right
    have hw : (streamDataset (datasets ws.datasetId) (transfer ws.bindingIndex) run ws).1.flatMap
        (·.rowsFor i) = [] := streamFrom_rowsFor_of_ne (Ne.symm h.left)
    simp only [streamDatasets]
    split_ifs
    case pos => exact ih
    case pos => rw [List.flatMap_append, hw, ih, List.append_nil]
    case neg => exact hw

-- Every binding is streamed at most once.
theorem streamDatasets_rowsFor (datasets : String → List StringMap) (transfer : ℕ → Transfer)
    (run : RunId) (hn : (streams.map (·.bindingIndex)).Nodup) (hw : ws ∈ streams) :
    (streamDatasets datasets transfer run streams).flatMap (·.rowsFor ws.bindingIndex) <+:
      ws.slice datasets := by
  induction streams
  case nil => cases hw
  case cons ws' streams ih =>
    rw [List.map_cons, List.nodup_cons] at hn
    cases List.mem_cons.mp hw
    case inl h =>
      subst h
      have hr := streamDatasets_rowsFor_of_not_mem datasets transfer run hn.left
      simp only [streamDatasets]
      split_ifs
      case pos => exact hr ▸ List.nil_prefix
      case pos =>
        rw [List.flatMap_append, hr, List.append_nil]
        exact streamDataset_rowsFor
      case neg => exact streamDataset_rowsFor
    case inr h =>
      have hne : ws'.bindingIndex ≠ ws.bindingIndex := fun he =>
        hn.left (he ▸ List.mem_map_of_mem h)
      have hr : (streamDataset (datasets ws'.datasetId) (transfer ws'.bindingIndex) run ws').1.flatMap
          (·.rowsFor ws.bindingIndex) = [] := streamFrom_rowsFor_of_ne hne
      simp only [streamDatasets]
      split_ifs
      case pos => exact ih hn.right h
      case pos =>
        rw [List.flatMap_append, hr, List.nil_append]
        exact ih hn.right h
      case neg => exact hr ▸ List.nil_prefix

-- Nothing goes wrong on the way.
def Transfer.Works (t : Transfer) : Prop :=
  ∀ sent, ¬t.fetchFails sent ∧ ¬t.closed sent

-- The dataset still has the rows that the worker is to see.
def WorkerStream.Within (datasets : String → List StringMap) (ws : WorkerStream) : Prop :=
  ws.offset + ws.count ≤ (datasets ws.datasetId).length

theorem WorkerStream.Within.length_slice (h : ws.Within datasets) :
    (ws.slice datasets).length = ws.count := by
  have hl := Nat.le_sub_of_add_le' h
  simp [slice, getRowsRange, hl]

-- As long as nothing goes wrong and there are rows, the streaming goes on to its end.
theorem streamFrom_complete (ht : t.Works) (hr : ws.offset + ws.count ≤ rows.length) :
    (streamFrom rows t run ws sent).2 = true ∧
    (streamFrom rows t run ws sent).1.flatMap (·.rowsFor ws.bindingIndex) =
      (getRowsRange rows (ws.offset + sent) (ws.count - sent)).map (applyMappings ws.mappings) := by
  fun_induction streamFrom rows t run ws sent
  case case1 sent h limit src hs =>
    cases hs
    case inl hf => exact absurd hf (ht sent).1
    case inr he =>
      have hlen : 0 < src.length := by
        have hl : 0 < limit := Nat.lt_min.mpr ⟨by decide, Nat.sub_pos_of_lt h⟩
        simp only [src, getRowsRange, List.length_take, List.length_drop]
        omega
      exact absurd (List.isEmpty_iff.mp he) (List.ne_nil_of_length_pos hlen)
  case case2 sent _ _ _ _ hc => exact absurd hc (ht sent).2
  case case3 sent _ limit src _ _ messages complete hrest ih =>
    rw [hrest] at ih
    have hs := take_eq_batch_append (rows.drop (ws.offset + sent))
      (min_le_right datasetBatchRows (ws.count - sent))
    rw [List.drop_drop, Nat.sub_sub, Nat.add_assoc] at hs
    refine ⟨ih.1, ?_⟩
    rw [getRowsRange, hs, List.map_append]
    simp only [List.flatMap_cons, ServerMessage.rowsFor, if_true]
    exact congrArg _ ih.2
  case case4 h => simp [getRowsRange, Nat.sub_eq_zero_of_le (not_lt.mp h)]

-- A slice that is not too large makes a single batch.
theorem streamDataset_once (ht : t.Works) (hr : ws.offset + ws.count ≤ rows.length)
    (hz : 0 < ws.count) (hc : ws.count ≤ datasetBatchRows) :
    streamDataset rows t run ws = ([.datasetBatch run
      ((getRowsRange rows ws.offset ws.count).map (applyMappings ws.mappings)) ws.bindingIndex],
      true) := by
  have hsrc : getRowsRange rows (ws.offset + 0) (min datasetBatchRows (ws.count - 0)) =
      getRowsRange rows ws.offset ws.count := by
    rw [Nat.add_zero, Nat.sub_zero, min_eq_right hc]
  have hlen : (getRowsRange rows ws.offset ws.count).length = ws.count := by
    simp only [getRowsRange, List.length_take, List.length_drop]
    omega
  have hne : ¬(t.fetchFails 0 ∨ (getRowsRange rows ws.offset ws.count).isEmpty) := by
    rintro (hf | he)
    case inl => exact (ht 0).1 hf
    case inr =>
      exact absurd (List.isEmpty_iff.mp he) (List.ne_nil_of_length_pos (hz.trans_eq hlen.symm))
  rw [streamDataset, streamFrom, dif_pos hz]
  simp only [hsrc, dif_neg hne, (ht 0).2, Nat.zero_add, hlen]
  rw [streamFrom, dif_neg (lt_irrefl _)]
  rfl

-- Every binding is streamed as a whole.
theorem streamDatasets_complete (run : RunId) (hn : (streams.map (·.bindingIndex)).Nodup)
    (ht : ∀ i, (transfer i).Works) (hr : ∀ ws ∈ streams, ws.Within datasets) (hw : ws ∈ streams) :
    (streamDatasets datasets transfer run streams).flatMap (·.rowsFor ws.bindingIndex) =
      ws.slice datasets := by
  induction streams
  case nil => cases hw
  case cons ws' streams ih =>
    rw [List.map_cons, List.nodup_cons] at hn
    rw [List.forall_mem_cons] at hr
    have ⟨hc, hrows⟩ := @streamFrom_complete _ _ run ws' 0 (ht ws'.bindingIndex) hr.1
    have hc : (streamDataset (datasets ws'.datasetId) (transfer ws'.bindingIndex) run ws').2 = true :=
      hc
    have hskip : streamDatasets datasets transfer run (ws' :: streams) =
        if ws'.count = 0 then streamDatasets datasets transfer run streams
        else (streamDataset (datasets ws'.datasetId) (transfer ws'.bindingIndex) run ws').1 ++
          streamDatasets datasets transfer run streams := by
      simp only [streamDatasets, hc, if_true]
    rw [hskip]
    cases List.mem_cons.mp hw
    case inl h =>
      subst h
      have hrest := streamDatasets_rowsFor_of_not_mem datasets transfer run hn.left
      split_ifs with hz
      case pos => rw [hrest, WorkerStream.slice, getRowsRange, hz, List.take_zero, List.map_nil]
      case neg =>
        rw [List.flatMap_append, hrest, List.append_nil]
        exact hrows
    case inr h =>
      have hne : ws'.bindingIndex ≠ ws.bindingIndex := fun he =>
        hn.left (he ▸ List.mem_map_of_mem h)
      have hother : (streamDataset (datasets ws'.datasetId) (transfer ws'.bindingIndex) run
          ws').1.flatMap (·.rowsFor ws.bindingIndex) = [] := streamFrom_rowsFor_of_ne hne
      split_ifs
      case pos => exact ih hn.right hr.2 h
      case neg =>
        rw [List.flatMap_append, hother, List.nil_append]
        exact ih hn.right hr.2 h

end Coordinator
