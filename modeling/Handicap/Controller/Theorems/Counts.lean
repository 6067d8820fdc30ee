import Handicap.Controller.Theorems.Collection
import Handicap.Store.Theorems.Metrics

open Coordinator Engine Store Worker Report

-- The requests that the workers of a completed run have recorded, in the report.
namespace Controller

section Tallies

variable {serialize : SerializeHistogram} {statusText : StatusText} {runId worker : String}
  {f : MetricFlush} {m : Metric}

-- The counts of status codes are kept as a text.
def isStatus : Metric → Bool
  | .status .. => true
  | _          => false

def rowTally (r : WindowWithHdr) (m : Metric) : ℕ :=
  Metric.one r.count (.requests r.stepId.text r.tsSecond) m +
    Metric.one r.errorCount (.errors r.stepId.text r.tsSecond) m

def statsTally (st : MetricStats) (m : Metric) : ℕ :=
  (st.loopStats.map (·.tally m)).sum + (st.branchStats.map (·.tally m)).sum +
    (st.groupStats.map fun g => Metric.one g.count (.group g.stepId g.name) m).sum +
    (st.phaseStats.map fun p => Metric.one p.count (.phase p.stepId p.name) m).sum +
    (st.errorKindStats.map (·.tally m)).sum + Metric.one st.dropped .dropped m

-- What the database holds of a metric.
def storedTally (x : RunMetrics) (m : Metric) : ℕ :=
  (x.rows.map (rowTally · m)).sum + (x.stats.map fun b => statsTally b.2 m).sum

theorem sum_filterMap {α β : Type*} {g : α → Option β} {t : β → ℕ} {t' : α → ℕ}
    (h : ∀ a, (g a).elim 0 t = t' a) (l : List α) :
    ((l.filterMap g).map t).sum = (l.map t').sum := by
  induction l
  case nil => rfl
  case cons a l ih =>
    rw [List.map_cons, List.sum_cons, ← h a, ← ih]
    cases hg : g a
    case none => simp [hg]
    case some => simp [hg]

-- The sum over a list, by the keys of its elements.
theorem sum_by_key {α κ : Type*} [DecidableEq κ] {l : List α} {keys : List κ} (key : α → κ)
    (t : α → ℕ) (hn : keys.Nodup) (hk : ∀ a ∈ l, key a ∈ keys) :
    (l.map t).sum = (keys.map fun k => ((l.filter (key · = k)).map t).sum).sum := by
  induction l
  case nil => simp
  case cons a l ih =>
    rw [List.forall_mem_cons] at hk
    have hs k : (((a :: l).filter (key · = k)).map t).sum =
        (if k = key a then t a else 0) + ((l.filter (key · = k)).map t).sum := by
      cases Decidable.em (key a = k)
      case inl h => simp [h]
      case inr h => simp [h, Ne.symm h]
    have hi : (keys.map fun k => if k = key a then t a else 0).sum = t a := by
      have hc : (keys.filter (· = key a)).length = 1 :=
        List.countP_eq_length_filter.symm.trans (List.count_eq_one_of_mem hn hk.left)
      simp [List.sum_map_ite, hc]
    simp only [hs, List.sum_map_add, hi, List.map_cons, List.sum_cons]
    rw [ih hk.right]

theorem window_tally (h : isStatus m = false) (w : StepWindow) :
    w.tally m = Metric.one w.count (.requests w.stepId w.tsSecond) m +
      Metric.one w.errorCount (.errors w.stepId w.tsSecond) m := by
  have hz : (w.statusCounts.sum fun code n => Metric.one n (.status w.stepId w.tsSecond code) m) =
      0 := by
    have hn code n : Metric.one n (.status w.stepId w.tsSecond code) m = 0 :=
      if_neg fun he => by simp [← he, isStatus] at h
    simp [Table.sum, hn]
  rw [StepWindow.tally, hz, Nat.add_zero]

-- The rows of what a worker has drained.
theorem drainedRows_tally (hs : ∀ l, (serialize l).isSome) (h : isStatus m = false)
    (windows : List StepWindow) :
    ((drainedRows statusText serialize worker windows).map (rowTally · m)).sum =
      (windows.map (·.tally m)).sum := by
  rw [drainedRows, List.map_map]
  refine sum_filterMap (fun w => ?_) windows
  obtain ⟨hdr, hh⟩ := Option.isSome_iff_exists.mp (hs w.histogram)
  simp [metricWindow, hh, metricRow, rowTally, window_tally h]

-- The statistics of the batch that a worker makes of what it has drained.
theorem batch_tally (runId worker : String) (hs : ∀ l, (serialize l).isSome) :
    (metricBatch serialize runId worker f).elim 0 (fun b => statsTally b.stats m) +
      (f.windows.map (·.tally m)).sum = f.tally m := by
  have hg : ((f.groupStats.filterMap fun g =>
      latencyStat serialize g.stepId g.branch g.histogram g.count).map fun g =>
        Metric.one g.count (.group g.stepId g.name) m).sum = (f.groupStats.map (·.tally m)).sum :=
    sum_filterMap (fun g => by
      obtain ⟨hdr, hh⟩ := Option.isSome_iff_exists.mp (hs g.histogram)
      simp [latencyStat, hh, GroupStat.tally]) _
  have hp : ((f.phaseStats.filterMap fun p =>
      latencyStat serialize p.stepId p.phase p.histogram p.count).map fun p =>
        Metric.one p.count (.phase p.stepId p.name) m).sum = (f.phaseStats.map (·.tally m)).sum :=
    sum_filterMap (fun p => by
      obtain ⟨hdr, hh⟩ := Option.isSome_iff_exists.mp (hs p.histogram)
      simp [latencyStat, hh, PhaseStat.tally]) _
  unfold metricBatch
  dsimp only
  split_ifs
  case neg =>
    simp only [Option.elim_some, statsTally, hg, hp, MetricFlush.tally]
    omega
  case pos h =>
    simp only [Bool.and_eq_true, List.isEmpty_iff, beq_iff_eq] at h
    simp only [h] at hg hp
    simp [MetricFlush.tally, h, ← hg, ← hp]

theorem batch_windows : (metricBatch serialize runId worker f).elim [] (·.windows) =
    f.windows.filterMap (metricWindow serialize) := by
  unfold metricBatch
  dsimp only
  split_ifs
  case neg => rfl
  case pos h =>
    simp only [Bool.and_eq_true, List.isEmpty_iff] at h
    simp [h]

end Tallies

namespace Collection

variable {driver : Driver} {cap : ℕ} {wr : Writers} {s : Collection} {w : WorkerId} {m : Metric}

-- What the VUs of a worker have recorded of a metric, and the arrivals that they had to drop.
def made (cap : ℕ) (s : Collection) (m : Metric) (w : WorkerId) : ℕ :=
  ((s.engines w).recorded.map (·.tally cap m)).sum + Metric.one (s.engines w).dropped .dropped m

namespace Sound

-- In a completed run, everything that an engine has recorded has been received by the forwarder.
theorem delivered_tally (h : s.Sound driver cap wr) (hc : s.delivery.completed) :
    ((s.engines w).delivered.map (·.tally m)).sum = s.made cap m w := by
  have l := h.linked w
  have hn (he : s.engines w = .new driver cap flushCapacity) :
      ((s.engines w).delivered.map (·.tally m)).sum = s.made cap m w := by
    simp [made, he, Flushing.new]
  cases (h.delivery.quiet hc w).right.right
  case inl hw => exact hn (l.unstarted (.inl hw))
  case inr hr =>
    cases l.sent (.inr hr.right)
    case inr he => exact hn he
    case inl hcl =>
      obtain ⟨_, hq, _, ho⟩ := l.closed hcl
      exact l.intact.delivered_tally ho hq m

theorem windowsOf_eq (h : s.Sound driver cap wr) : s.delivery.windowsOf w =
    ((s.engines w).delivered.flatMap (·.windows)).filterMap (metricWindow wr.serialize) := by
  rw [Delivery.windowsOf, (h.linked w).produced]
  generalize (s.engines w).delivered = l
  induction l
  case nil => rfl
  case cons f l ih =>
    have hb : (metricBatch wr.serialize wr.runId w f).elim [] (·.windows) = _ := batch_windows
    rw [List.flatMap_cons, List.filterMap_append, ← ih, ← hb]
    cases hm : metricBatch wr.serialize wr.runId w f
    case none => simp [hm]
    case some => simp [hm]

-- The rows of a worker are its windows, and none of them has been left out.
theorem rowsOf_eq (h : s.Sound driver cap wr) (hc : s.delivery.completed) :
    rowsOf w s.delivery.metrics.rows =
      drainedRows wr.statusText wr.serialize w ((s.engines w).delivered.flatMap (·.windows)) := by
  rw [(h.delivery.stored hc w).left, h.windowsOf_eq]
  exact insertBatch_of_nodup (drainedRows_nodup (h.linked w).intact.delivered_nodup)

theorem worker_tally (hs : ∀ l, (wr.serialize l).isSome) (h : s.Sound driver cap wr)
    (hc : s.delivery.completed) (hm : isStatus m = false) :
    ((rowsOf w s.delivery.metrics.rows).map (rowTally · m)).sum +
      ((Delivery.statsOf w s.delivery.metrics).map (statsTally · m)).sum = s.made cap m w := by
  rw [h.rowsOf_eq hc, drainedRows_tally hs hm, (h.delivery.stored hc w).right,
    (h.linked w).produced, ← h.delivered_tally hc]
  generalize (s.engines w).delivered = l
  induction l
  case nil => rfl
  case cons f l ih =>
    have hb := batch_tally (m := m) (f := f) wr.runId w hs
    rw [List.flatMap_cons, List.map_append, List.sum_append, List.map_cons, List.sum_cons, ← hb,
      ← ih]
    cases hf : metricBatch wr.serialize wr.runId w f
    case none => simp [hf]; omega
    case some => simp [hf]; omega

-- A row belongs to a worker of the run.
theorem row_worker (h : s.Sound driver cap wr) (hc : s.delivery.completed) {r : WindowWithHdr}
    (hr : r ∈ s.delivery.metrics.rows) : r.workerId.text ∈ s.delivery.run.workers.keys := by
  have hm : r ∈ rowsOf r.workerId.text s.delivery.metrics.rows := mem_rowsOf.mpr ⟨hr, rfl⟩
  rw [(h.delivery.stored hc _).left] at hm
  cases hst : (s.delivery.executions r.workerId.text).stage
  case waiting =>
    have hp : (s.delivery.executions r.workerId.text).produced = [] :=
      ((h.delivery.tracked _).waiting hst).left
    simp [Delivery.windowsOf, hp, Store.insertBatch] at hm
  all_goals
    have hm := (h.delivery.member r.workerId.text (by simp [hst])).resolve_right (by simp [hc])
    exact AList.mem_keys.mpr (AList.lookup_isSome.mp hm)

theorem stats_worker (h : s.Sound driver cap wr) (hc : s.delivery.completed)
    {b : String × MetricStats} (hb : b ∈ s.delivery.metrics.stats) :
    b.1 ∈ s.delivery.run.workers.keys := by
  have hm : b.2 ∈ Delivery.statsOf b.1 s.delivery.metrics :=
    List.mem_map_of_mem (List.mem_filter.mpr ⟨hb, by simp⟩)
  rw [(h.delivery.stored hc _).right] at hm
  cases hst : (s.delivery.executions b.1).stage
  case waiting =>
    have hp : (s.delivery.executions b.1).produced = [] :=
      ((h.delivery.tracked _).waiting hst).left
    simp [hp] at hm
  all_goals
    have hm := (h.delivery.member b.1 (by simp [hst])).resolve_right (by simp [hc])
    exact AList.mem_keys.mpr (AList.lookup_isSome.mp hm)

-- The database holds what the workers of the run have recorded, and nothing else.
theorem stored_tally (hs : ∀ l, (wr.serialize l).isSome) (h : s.Sound driver cap wr)
    (hc : s.delivery.completed) (hm : isStatus m = false) :
    storedTally s.delivery.metrics m =
      (s.delivery.run.workers.keys.map (s.made cap m)).sum := by
  have hn := s.delivery.run.workers.keys_nodup
  rw [storedTally, sum_by_key (·.workerId.text) (rowTally · m) hn fun r hr => h.row_worker hc hr,
    sum_by_key Prod.fst (fun b => statsTally b.2 m) hn fun b hb => h.stats_worker hc hb,
    ← List.sum_map_add]
  refine congrArg List.sum (List.map_congr_left fun w _ => ?_)
  rw [← h.worker_tally hs hc hm, Delivery.statsOf, List.map_map]
  rfl

end Sound

-- A request that was recorded in the given window.
def inWindow (stepId : String) (ts : ℤ) : Record → Bool
  | .request ts' stepId' _ _ _ _ => stepId' = stepId && ts' = ts
  | _                            => false

def isRequest : Record → Bool
  | .request .. => true
  | _           => false

def isErrorRequest : Record → Bool
  | .request _ _ _ _ isError _ => isError
  | _                          => false

-- The window of a request.
def recordKey : Record → ℤ × Name
  | .request ts stepId _ _ _ _ => (ts, ⟨stepId⟩)
  | _                          => (0, ⟨""⟩)

def errorInWindow (stepId : String) (ts : ℤ) : Record → Bool
  | .request ts' stepId' _ _ isError _ => isError && (stepId' = stepId && ts' = ts)
  | _                                  => false

-- How many of the records of all workers are of the given kind.
def total (s : Collection) (p : Record → Bool) : ℕ :=
  (s.delivery.run.workers.keys.map fun w => (s.engines w).recorded.countP p).sum

theorem made_requests (cap : ℕ) {stepId : String} {ts : ℤ} :
    s.made cap (.requests stepId ts) w = (s.engines w).recorded.countP (inWindow stepId ts) := by
  have hr (r : Record) : r.tally cap (.requests stepId ts) =
      if inWindow stepId ts r then 1 else 0 := by
    cases r
    case request ts' stepId' _ _ isError loopIndex =>
      cases loopIndex
      case none => simp [Record.tally, windowTally, loopTally, Metric.one, inWindow]
      case some =>
        simp only [Record.tally, windowTally, loopTally, Metric.one, inWindow]
        split_ifs <;> simp_all
    all_goals simp [Record.tally, Metric.one, inWindow]
  simp only [made, hr]
  simp [Metric.one, List.countP_eq_length_filter, List.sum_map_ite]

theorem made_errors (cap : ℕ) {stepId : String} {ts : ℤ} :
    s.made cap (.errors stepId ts) w =
      (s.engines w).recorded.countP (errorInWindow stepId ts) := by
  have hr (r : Record) : r.tally cap (.errors stepId ts) =
      if errorInWindow stepId ts r then 1 else 0 := by
    cases r
    case request ts' stepId' _ _ isError loopIndex =>
      cases loopIndex
      case none =>
        cases isError <;> simp [Record.tally, windowTally, loopTally, Metric.one, errorInWindow]
      case some =>
        cases isError <;> simp only [Record.tally, windowTally, loopTally, Metric.one, errorInWindow]
          <;> split_ifs <;> simp_all
    all_goals simp [Record.tally, Metric.one, errorInWindow]
  simp only [made, hr]
  simp [Metric.one, List.countP_eq_length_filter, List.sum_map_ite]

theorem statsTally_requests {st : MetricStats} {stepId : String} {ts : ℤ} :
    statsTally st (.requests stepId ts) = 0 := by
  simp [statsTally, LoopStat.tally, BranchStat.tally, ErrorKindStat.tally, Metric.one]

theorem statsTally_errors {st : MetricStats} {stepId : String} {ts : ℤ} :
    statsTally st (.errors stepId ts) = 0 := by
  simp [statsTally, LoopStat.tally, BranchStat.tally, ErrorKindStat.tally, Metric.one]

theorem key_eq_iff {r : WindowWithHdr} {stepId : Name} {ts : ℤ} :
    r.key = toLex (ts, stepId) ↔ r.stepId.text = stepId.text ∧ r.tsSecond = ts := by
  have hn : r.stepId = stepId ↔ r.stepId.text = stepId.text := by
    cases stepId
    cases hr : r.stepId
    simp
  rw [WindowWithHdr.key, toLex_inj, Prod.mk.injEq, hn, and_comm]

theorem storedTally_requests {x : RunMetrics} {stepId : Name} {ts : ℤ} :
    storedTally x (.requests stepId.text ts) =
      (x.rows.map fun r => if r.key = toLex (ts, stepId) then r.count else 0).sum := by
  have hr (r : WindowWithHdr) : rowTally r (.requests stepId.text ts) =
      if r.key = toLex (ts, stepId) then r.count else 0 := by
    simp [rowTally, Metric.one, key_eq_iff]
  simp [storedTally, statsTally_requests, hr]

theorem storedTally_errors {x : RunMetrics} {stepId : Name} {ts : ℤ} :
    storedTally x (.errors stepId.text ts) =
      (x.rows.map fun r => if r.key = toLex (ts, stepId) then r.errorCount else 0).sum := by
  have hr (r : WindowWithHdr) : rowTally r (.errors stepId.text ts) =
      if r.key = toLex (ts, stepId) then r.errorCount else 0 := by
    simp [rowTally, Metric.one, key_eq_iff]
  simp [storedTally, statsTally_errors, hr]

section Report

variable {H D B R : Type*} [AddCommMonoid H] {codecs : Codecs H D} {breakdown : Name → B}
  {derive : ReportSummary → List ReportWindow → List (ReportStep B) → StatusCounts → R}
  {report : ReportJson D B R} {base : PendingAssignment} {expected : ℕ} {totalVus : U32}
  {precomputed : Option (Vector (ℕ × ℕ) expected)}

-- A report that counts every request that the workers of the run have recorded once, in the window
-- of its step and second and in the summary.
structure Counts (s : Collection) (report : ReportJson D B R) : Prop where
  windows : ∀ win ∈ report.windows,
    win.count = s.total (inWindow win.stepId.text win.tsSecond) ∧
    win.errorCount = s.total (errorInWindow win.stepId.text win.tsSecond)
  present : ∀ w, ∀ r ∈ (s.engines w).recorded, isRequest r →
    recordKey r ∈ report.windows.map fun win => (win.tsSecond, win.stepId)
  summary : report.summary.count = s.total isRequest ∧ report.summary.errors = s.total isErrorRequest

theorem inWindow_iff {r : Record} {stepId : Name} {ts : ℤ} :
    inWindow stepId.text ts r ↔ isRequest r ∧ recordKey r = (ts, stepId) := by
  cases stepId
  cases r <;> simp [inWindow, isRequest, recordKey, and_comm]

theorem errorInWindow_iff {r : Record} {stepId : Name} {ts : ℤ} :
    errorInWindow stepId.text ts r ↔ isErrorRequest r ∧ recordKey r = (ts, stepId) := by
  cases stepId
  cases r <;> simp [errorInWindow, isErrorRequest, recordKey, and_comm]

-- Records of a kind, by the windows of the report.
theorem countP_by_window {p : Record → Bool} {q : String → ℤ → Record → Bool} {l : List Record}
    (hq : ∀ r stepId ts, q (stepId : Name).text ts r ↔ p r ∧ recordKey r = (ts, stepId))
    (hn : (report.windows.map fun win => (win.tsSecond, win.stepId)).Nodup)
    (hk : ∀ r ∈ l, p r → recordKey r ∈ report.windows.map fun win => (win.tsSecond, win.stepId)) :
    l.countP p = (report.windows.map fun win => l.countP (q win.stepId.text win.tsSecond)).sum := by
  have hs := sum_by_key (l := l.filter p) recordKey (fun _ => 1) hn fun r hr =>
    hk r (List.mem_filter.mp hr).left (List.mem_filter.mp hr).right
  rw [List.countP_eq_length_filter]
  simp only [List.map_const', List.sum_replicate, smul_eq_mul, mul_one, List.map_map] at hs
  rw [hs]
  refine congrArg List.sum (List.map_congr_left fun win _ => ?_)
  simp only [Function.comp_apply, List.filter_filter, List.countP_eq_length_filter]
  refine congrArg List.length (List.filter_congr fun r _ => ?_)
  rw [Bool.eq_iff_iff, hq]
  simp [and_comm]

theorem sum_total {p : Record → Bool} {q : String → ℤ → Record → Bool}
    (h : ∀ w, (s.engines w).recorded.countP p =
      (report.windows.map fun win =>
        (s.engines w).recorded.countP (q win.stepId.text win.tsSecond)).sum) :
    (report.windows.map fun win => s.total (q win.stepId.text win.tsSecond)).sum = s.total p := by
  simp only [total, h]
  exact Multiset.sum_map_sum_map (Multiset.ofList report.windows)
    (Multiset.ofList s.delivery.run.workers.keys)

theorem counts (hs : ∀ l, (wr.serialize l).isSome) (h : s.Sound driver cap wr)
    (hc : s.delivery.completed) :
    s.Counts (buildReport codecs breakdown derive s.delivery.metrics.rows) := by
  have hwin : ∀ win ∈ (buildReport codecs breakdown derive s.delivery.metrics.rows).windows,
      win.count = s.total (inWindow win.stepId.text win.tsSecond) ∧
      win.errorCount = s.total (errorInWindow win.stepId.text win.tsSecond) := by
    intro win hw
    obtain ⟨hn, he⟩ := window_counts hw
    rw [hn, he, ← storedTally_requests, ← storedTally_errors, h.stored_tally hs hc rfl,
      h.stored_tally hs hc rfl]
    simp only [total, ← made_requests cap, ← made_errors cap]
    trivial
  have hp : ∀ w, ∀ r ∈ (s.engines w).recorded, isRequest r → recordKey r ∈
      (buildReport codecs breakdown derive s.delivery.metrics.rows).windows.map
        fun win => (win.tsSecond, win.stepId) := by
    intro w r hr hq
    have hp : 0 < (s.engines w).recorded.countP (inWindow (recordKey r).2.text (recordKey r).1) :=
      List.countP_pos_iff.mpr ⟨r, hr, inWindow_iff.2 ⟨hq, rfl⟩⟩
    have ht := h.worker_tally (w := w) hs hc
      (m := .requests (recordKey r).2.text (recordKey r).1) rfl
    simp only [statsTally_requests, List.map_const', List.sum_replicate, smul_zero, add_zero,
      made_requests] at ht
    obtain ⟨n, hn, hz⟩ := List.exists_mem_ne_zero_of_sum_ne_zero (ht ▸ hp.ne')
    obtain ⟨row, hrow, he⟩ := List.mem_map.mp hn
    refine mem_windows_keys.mpr ⟨row, (mem_rowsOf.mp hrow).left, ?_⟩
    by_contra hk
    have hk : ¬((row.stepId.text = (recordKey r).2.text) ∧ row.tsSecond = (recordKey r).1) :=
      fun hk' => hk (congrArg ofLex (key_eq_iff.2 hk'))
    simp [← he, rowTally, Metric.one, hk] at hz
  have hnodup : ((buildReport codecs breakdown derive s.delivery.metrics.rows).windows.map
      fun win => (win.tsSecond, win.stepId)).Nodup := by
    rw [windows_keys]
    exact SortedTable.nodup_toList.map ofLex.injective
  have hsum : summaryTotals (buildReport codecs breakdown derive s.delivery.metrics.rows) =
      windowTotals (buildReport codecs breakdown derive s.delivery.metrics.rows) :=
    summaryTotals_eq.trans windowTotals_eq.symm
  refine ⟨hwin, hp, ?_, ?_⟩
  · refine (congrArg Totals.count hsum).trans ?_
    rw [← sum_total fun w => countP_by_window (fun _ _ _ => inWindow_iff) hnodup (hp w)]
    exact congrArg List.sum (List.map_congr_left fun win hw => (hwin win hw).left)
  · refine (congrArg Totals.errors hsum).trans ?_
    rw [← sum_total fun w => countP_by_window (fun _ _ _ => errorInWindow_iff) hnodup
      fun r hr he => hp w r hr (by cases r <;> first | rfl | cases he)]
    exact congrArg List.sum (List.map_congr_left fun win hw => (hwin win hw).right)

-- When the report of the verdict is built, it counts every request that any worker has recorded
-- once, in the window of its step and second and in the summary, and the database holds all other
-- metrics of the workers, unless a flusher was stopped while it was holding a batch.
theorem report_counts (codecs : Codecs H D) (breakdown : Name → B)
    (derive : ReportSummary → List ReportWindow → List (ReportStep B) → StatusCounts → R)
    (clocks : WorkerId → ℤ) (events : List CollectionEvent) (hs : ∀ l, (wr.serialize l).isSome)
    (hi : Trace.Meets (step driver wr) (fun s e => s.stopsIdle e)
      (init driver cap clocks (.new base expected totalVus precomputed)) events) :
    let s := (init driver cap clocks (.new base expected totalVus precomputed)).after driver wr events
    ∀ m, s.delivery.verdict = some m →
      s.Counts (buildReport codecs breakdown derive m.rows) ∧
      ∀ metric, isStatus metric = false →
        storedTally m metric = (s.delivery.run.workers.keys.map (s.made cap metric)).sum := by
  intro s m hv
  have h : s.Sound driver cap wr := Sound.init.after hi
  obtain ⟨hc, hm⟩ := h.delivery.verdict m hv
  subst hm
  exact ⟨counts hs h hc, fun _ hx => h.stored_tally hs hc hx⟩

-- Two workers record requests, in a second that they share and in one of their own, and their
-- streams are handled in turns.
def twoCollections : List CollectionEvent :=
  [.delivery (.register "v" 0), .delivery (.worker "v" .assigned),
   .delivery (.register "w" 1), .delivery (.worker "w" .assigned),
   .delivery (.worker "w" .loaded), .delivery (.worker "v" .loaded),
   .engine "v" 5 .startFlusher, .engine "w" 8 .startFlusher,
   .engine "v" 5 (.record (.request 5 "s" 1000 200 false none)),
   .engine "w" 8 (.record (.request 8 "s" 900 500 true none)),
   .engine "v" 6 (.tick 6), .engine "v" 8 (.record (.request 8 "s" 700 200 false none)),
   .engine "v" 9 .join, .engine "w" 9 .join, .engine "v" 9 .drainFinal, .engine "v" 9 .abortFlusher,
   .engine "v" 9 .flusherStopped, .engineReturned "v" "",
   .forward "v", .forward "v", .forward "v", .forward "v", .forward "v",
   .delivery (.worker "v" .report), .delivery (.receive "v"), .delivery (.handle "v"),
   .engine "w" 9 .drainFinal, .engine "w" 9 .abortFlusher, .engine "w" 9 .flusherStopped,
   .engineReturned "w" "", .forward "w", .forward "w", .forward "w",
   .delivery (.worker "w" .report),
   .delivery (.receive "w"), .delivery (.handle "w"), .delivery (.handle "v"),
   .delivery (.handle "w"), .delivery (.handle "v"), .delivery (.receive "v"),
   .delivery (.handle "v"), .delivery (.handle "v"), .delivery (.handle "v"),
   .delivery (.receive "v"), .delivery (.handle "v"),
   .delivery (.handle "w"), .delivery (.receive "w"), .delivery (.handle "w"),
   .delivery (.handle "w")]

theorem report_counts_pair :
    let s := (init .closedLoop 0 (fun _ => 5) (.new default 2 2 none)).after .closedLoop
      Delivery.sampleWriters twoCollections
    s.delivery.verdict.isSome ∧ s.total isRequest = 3 ∧
    ∀ m, s.delivery.verdict = some m →
      s.Counts (buildReport bareCodecs (fun _ => ()) (fun _ _ _ _ => ()) m.rows) ∧
      ∀ metric, isStatus metric = false →
        storedTally m metric = (s.delivery.run.workers.keys.map (s.made 0 metric)).sum :=
  ⟨by decide +kernel, by decide +kernel,
    report_counts bareCodecs (fun _ => ()) (fun _ _ _ _ => ()) (fun _ => 5) twoCollections
      (fun _ => rfl) (by decide +kernel)⟩

end Report

end Collection

end Controller
