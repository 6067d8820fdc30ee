import Handicap.Engine.Theorems.Collecting
import Handicap.Store.Metrics

open Worker Report

namespace Store

variable {rows batch : List WindowWithHdr} {r r' : WindowWithHdr} {worker : String}

-- The rows of one worker.
def rowsOf (worker : String) (rows : List WindowWithHdr) : List WindowWithHdr :=
  rows.filter fun r => r.workerId.text = worker

theorem mem_rowsOf : r ∈ rowsOf worker rows ↔ r ∈ rows ∧ r.workerId.text = worker := by
  simp [rowsOf]

-- Whether a row is there already does not depend on the rows of other workers.
theorem rowsOf_any (h : r.workerId.text = worker) :
    (rowsOf worker rows).any (rowKey · = rowKey r) = rows.any (rowKey · = rowKey r) := by
  rw [rowsOf, List.any_filter]
  refine congrArg _ (funext fun r' => ?_)
  rw [Bool.and_eq_right_iff_imp]
  intro he
  have he := congrArg (·.2.2) (of_decide_eq_true he)
  exact decide_eq_true (he.trans h)

theorem rowsOf_insertRow (h : r.workerId.text = worker) :
    rowsOf worker (insertRow rows r) = insertRow (rowsOf worker rows) r := by
  rw [insertRow, insertRow, rowsOf_any h]
  split_ifs
  case pos => rfl
  case neg => simp [rowsOf, h]

theorem rowsOf_insertRow_of_ne (h : r.workerId.text ≠ worker) :
    rowsOf worker (insertRow rows r) = rowsOf worker rows := by
  rw [insertRow]
  split_ifs
  case pos => rfl
  case neg => simp [rowsOf, h]

theorem rowsOf_insertBatch (h : ∀ r ∈ batch, r.workerId.text = worker) :
    rowsOf worker (insertBatch rows batch) = insertBatch (rowsOf worker rows) batch := by
  induction batch generalizing rows
  case nil => rfl
  case cons r batch ih =>
    rw [List.forall_mem_cons] at h
    exact (ih h.right).trans (congrArg (insertBatch · batch) (rowsOf_insertRow h.left))

theorem rowsOf_insertBatch_of_ne (h : ∀ r ∈ batch, r.workerId.text ≠ worker) :
    rowsOf worker (insertBatch rows batch) = rowsOf worker rows := by
  induction batch generalizing rows
  case nil => rfl
  case cons r batch ih =>
    rw [List.forall_mem_cons] at h
    exact (ih h.right).trans (rowsOf_insertRow_of_ne h.left)

-- A row that is inserted is there, or another one with its key.
theorem insertRow_mem : r ∈ insertRow rows r ∨ ∃ r' ∈ rows, rowKey r' = rowKey r := by
  rw [insertRow]
  split_ifs
  case pos h => exact .inr (by simpa using h)
  case neg => simp

theorem mem_insertRow_of_mem (h : r' ∈ rows) : r' ∈ insertRow rows r := by
  rw [insertRow]
  split_ifs
  case pos => exact h
  case neg => exact List.mem_append_left _ h

theorem insertBatch_cons : insertBatch rows (r :: batch) = insertBatch (insertRow rows r) batch :=
  rfl

theorem insertBatch_append {batch' : List WindowWithHdr} :
    insertBatch rows (batch ++ batch') = insertBatch (insertBatch rows batch) batch' :=
  List.foldl_append

theorem mem_insertBatch_of_mem (h : r' ∈ rows) : r' ∈ insertBatch rows batch := by
  induction batch generalizing rows
  case nil => exact h
  case cons r batch ih => exact ih (mem_insertRow_of_mem h)

theorem exists_key_of_mem (h : r ∈ batch) :
    ∃ r' ∈ insertBatch rows batch, rowKey r' = rowKey r := by
  induction batch generalizing rows
  case nil => cases h
  case cons r₀ batch ih =>
    rw [insertBatch_cons]
    cases List.mem_cons.mp h
    case inl he =>
      subst he
      cases (insertRow_mem : r ∈ insertRow rows r ∨ _)
      case inl hm => exact ⟨r, mem_insertBatch_of_mem hm, rfl⟩
      case inr hm =>
        have ⟨r', hm, hk⟩ := hm
        exact ⟨r', mem_insertBatch_of_mem (mem_insertRow_of_mem hm), hk⟩
    case inr hm => exact ih hm

-- Rows with different keys are all kept.
theorem insertBatch_of_nodup (h : ((rows ++ batch).map rowKey).Nodup) :
    insertBatch rows batch = rows ++ batch := by
  induction batch generalizing rows
  case nil => simp [insertBatch]
  case cons r batch ih =>
    have hr : insertRow rows r = rows ++ [r] := by
      rw [insertRow, if_neg]
      rw [List.any_eq_true]
      intro ⟨r', hm, hk⟩
      rw [List.map_append, List.nodup_append] at h
      exact h.right.right _ (List.mem_map_of_mem hm) _ (List.mem_map_of_mem List.mem_cons_self)
        (of_decide_eq_true hk)
    rw [insertBatch_cons, hr, ih (by simpa using h), List.append_assoc]
    rfl

section

open Engine Worker Report

-- What a worker has drained, in the database.
variable {statusText : StatusText} {serialize : SerializeHistogram} {workerId : String}
  {windows : List StepWindow} {w : StepWindow} {v : MetricWindow}

-- The rows that the windows of a worker become.
def drainedRows (statusText : StatusText) (serialize : SerializeHistogram) (workerId : String)
    (windows : List StepWindow) : List WindowWithHdr :=
  (windows.filterMap (metricWindow serialize)).map (metricRow statusText workerId)

def keyOf (workerId : String) (k : String × ℤ) : RowKey :=
  (k.2, k.1, workerId)

theorem rowKey_metricRow (h : metricWindow serialize w = some v) :
    rowKey (metricRow statusText workerId v) = keyOf workerId (windowKey w) := by
  have ⟨hdr, _, he⟩ := Option.map_eq_some_iff.mp h
  subst he
  rfl

-- A window gives at most one row, under its own step and second.
theorem drainedRows_keys : List.Sublist
    ((drainedRows statusText serialize workerId windows).map rowKey)
    ((windows.map windowKey).map (keyOf workerId)) := by
  induction windows
  case nil => exact List.Sublist.slnil
  case cons w windows ih =>
    cases h : metricWindow serialize w
    case none =>
      rw [drainedRows, List.filterMap_cons_none h]
      exact ih.cons _
    case some v =>
      rw [drainedRows, List.filterMap_cons_some h, List.map_cons, List.map_cons, rowKey_metricRow h]
      exact ih.cons_cons _

theorem drainedRows_nodup (h : (windows.map windowKey).Nodup) :
    ((drainedRows statusText serialize workerId windows).map rowKey).Nodup := by
  refine List.Nodup.sublist drainedRows_keys (h.map (f := keyOf workerId) fun k k' he => ?_)
  simp only [keyOf, Prod.mk.injEq] at he
  exact Prod.ext he.right.left he.left

-- In every run in which nothing is recorded for what has been drained, every window and every
-- second of the gauge leaves the worker once, nothing is lost, and the database keeps every row.
theorem windows_leave_once (loopBreakdownCap : ℕ) (clock : ℤ) (calls : List TimedCall)
    (h : Trace.Meets Collecting.step Collecting.Timely (.new loopBreakdownCap clock) calls) :
    let s := Collecting.run loopBreakdownCap clock calls
    s.Once loopBreakdownCap ∧
    ∀ statusText serialize workerId,
      insertBatch [] (drainedRows statusText serialize workerId s.emitted.windows) =
        drainedRows statusText serialize workerId s.emitted.windows := by
  have o := Collecting.run_once h
  have hw := (List.nodup_append.mp o.windows).left
  exact ⟨o, fun _ _ _ => insertBatch_of_nodup (drainedRows_nodup hw)⟩

theorem windows_leave_once_loop :
    let record := AggregatorCall.record (.request 0 "step" 1000 200 false (some 7))
    let s := Collecting.run 2 5
      [⟨5, record⟩, ⟨5, .record (.activeVu 5 3 2)⟩, ⟨6, .drainCompleted 6⟩, ⟨6, record⟩,
        ⟨6, .drainActiveVuCompleted 6⟩, ⟨6, .drainLoopDeltas⟩, ⟨7, .drainAll⟩]
    s.emitted.windows.map windowKey = [("step", 5), ("step", 6)] ∧ s.Once 2 :=
  ⟨by decide, (windows_leave_once 2 5 _ (by decide)).left⟩

-- The supervisor of the VUs reads the clock at the end of a second, and the flusher gets the lock
-- before it. The second has been drained when its sample is recorded, and is drained again.
theorem windows_leave_once_counterexample :
    let s := Collecting.run 0 5
      [⟨5, .record (.activeVu 5 2 1)⟩, ⟨6, .drainActiveVuCompleted 6⟩,
        ⟨6, .record (.activeVu 5 2 2)⟩, ⟨7, .drainActiveVuCompleted 7⟩]
    s.clock = 7 ∧ s.emitted.activeVuSamples = [⟨5, 2, 1⟩, ⟨5, 2, 2⟩] ∧
    lastSample 5 s.recorded = some (2, 2) ∧ ¬s.Once 0 := by
  refine ⟨by decide, by decide, by decide, fun o => ?_⟩
  have h := (List.nodup_append.mp o.gauge).left
  revert h
  decide

end

end Store
