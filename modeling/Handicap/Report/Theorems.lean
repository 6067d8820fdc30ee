import Handicap.Report.Basic

namespace Report

section Status

variable {t u v : StatusCounts} {code : Name}

-- The number of requests that had a status code.
def statusCount (t : StatusCounts) (code : Name) : ℕ :=
  (t.lookup code).getD 0

theorem statusCount_update {k : Name} {n : ℕ} :
    statusCount (t.update k 0 (· + n)) code = statusCount t code + if k = code then n else 0 := by
  cases Decidable.em (k = code)
  case inl h => simp [statusCount, SortedTable.lookup_update, h]
  case inr h =>
    have h' : ¬code = k := fun he => h he.symm
    simp [statusCount, SortedTable.lookup_update, h, h']

-- Every code's requests are added.
theorem statusCount_addStatus :
    statusCount (addStatus t u) code = statusCount t code + statusCount u code := by
  have h := Table.foldl_measure (M := (statusCount · code))
    (m := fun e => if e.1 = code then e.2 else 0) (fun _ _ => statusCount_update) t u.toList
  have hu := SortedTable.sum_toList (t := u) (f := fun k n => if k = code then n else 0)
  rw [SortedTable.sum_single] at hu
  rw [addStatus, h, hu]
  rfl

theorem addStatus_comm : addStatus (addStatus t u) v = addStatus (addStatus t v) u := by
  unfold addStatus
  rw [← List.foldl_append, ← List.foldl_append]
  refine (List.perm_append_comm).foldl_eq' (fun e _ e' _ t => ?_) t
  exact SortedTable.update_comm fun _ _ => Nat.add_right_comm ..

end Status

section Rows

variable {H D : Type*} [AddCommMonoid H] {codecs : Codecs H D} {multi : Bool} {code : Name}
  {r r' : WindowWithHdr} {rows rows' : List WindowWithHdr} {acc : Acc H}

-- The rows of workers that have a name.
def named (rows : List WindowWithHdr) : List WindowWithHdr :=
  rows.filter fun r => !r.workerId.isEmpty

-- Rows of at least two named workers.
def SeveralWorkers (rows : List WindowWithHdr) : Prop :=
  ∃ r ∈ named rows, ∃ r' ∈ named rows, r.workerId ≠ r'.workerId

-- The requests of a row that had a status code.
def WindowWithHdr.status (codecs : Codecs H D) (code : Name) (r : WindowWithHdr) : ℕ :=
  statusCount (codecs.parseStatusCounts r.statusCounts) code

theorem mergeInto_comm {hist : Option H} {h h' : H} :
    mergeInto (mergeInto hist h) h' = mergeInto (mergeInto hist h') h := by
  simp [mergeInto, add_right_comm]

theorem WindowAcc.add_comm (w : WindowAcc H) :
    (w.add codecs r).add codecs r' = (w.add codecs r').add codecs r := by
  cases hd : codecs.decodeHdr r.hdrHistogram <;> cases hd' : codecs.decodeHdr r'.hdrHistogram
    <;> simp [add, hd, hd', addStatus_comm, mergeInto_comm, Nat.add_right_comm]

omit [AddCommMonoid H] in
theorem StepAcc.add_comm (s : StepAcc) :
    (s.add codecs r).add codecs r' = (s.add codecs r').add codecs r := by
  simp [add, addStatus_comm, Nat.add_right_comm]

theorem WorkerAcc.add_comm (w : WorkerAcc H) :
    (w.add codecs r).add codecs r' = (w.add codecs r').add codecs r := by
  cases hd : codecs.decodeHdr r.hdrHistogram <;> cases hd' : codecs.decodeHdr r'.hdrHistogram
    <;> simp [add, hd, hd', mergeInto_comm, Nat.add_right_comm]

-- The rows of a table may be added in either order.
theorem Acc.addRow_comm :
    (acc.addRow codecs multi r).addRow codecs multi r' =
      (acc.addRow codecs multi r').addRow codecs multi r := by
  simp only [Acc.addRow, Acc.mk.injEq]
  refine ⟨?windows, ?overall, ?perStep, ?perStepCount, ?status, ?count, ?errors, ?workers⟩
  case windows => exact SortedTable.update_comm fun _ => WindowAcc.add_comm
  case overall =>
    cases codecs.decodeHdr r.hdrHistogram <;> cases codecs.decodeHdr r'.hdrHistogram
      <;> simp [add_right_comm]
  case perStep =>
    cases codecs.decodeHdr r.hdrHistogram <;> cases codecs.decodeHdr r'.hdrHistogram <;> try rfl
    case some.some =>
      simp only [Option.elim_some]
      exact SortedTable.update_comm fun _ h => add_right_comm h _ _
  case perStepCount => exact SortedTable.update_comm fun _ => StepAcc.add_comm
  case status => exact addStatus_comm
  case count => exact Nat.add_right_comm ..
  case errors => exact Nat.add_right_comm ..
  case workers =>
    split_ifs
    case pos => exact SortedTable.update_comm fun _ => WorkerAcc.add_comm
    all_goals rfl

theorem multiWorker_perm (h : rows.Perm rows') : multiWorker rows = multiWorker rows' := by
  unfold multiWorker
  rw [(((h.map _).filter _).dedup).length_eq]

theorem accumulate_perm (h : rows.Perm rows') :
    accumulate codecs rows = accumulate codecs rows' := by
  rw [accumulate, accumulate, multiWorker_perm h]
  exact h.foldl_eq' (fun _ _ _ _ _ => Acc.addRow_comm) _

theorem mem_named : r ∈ named rows ↔ r ∈ rows ∧ (!r.workerId.isEmpty) :=
  List.mem_filter

-- The workers are told apart if two of them have names.
theorem multiWorker_iff : multiWorker rows ↔ SeveralWorkers rows := by
  have h := Finset.one_lt_card
    (s := ((rows.map (·.workerId)).filter fun w => !w.isEmpty).toFinset)
  rw [List.card_toFinset] at h
  rw [multiWorker, decide_eq_true_iff]
  refine h.trans ⟨?_, ?_⟩
  case refine_1 =>
    intro ⟨w, hw, w', hw', hn⟩
    simp only [List.mem_toFinset, List.mem_filter, List.mem_map] at hw hw'
    have ⟨⟨r, hr, he⟩, hw⟩ := hw
    have ⟨⟨r', hr', he'⟩, hw'⟩ := hw'
    subst he he'
    exact ⟨r, mem_named.2 ⟨hr, hw⟩, r', mem_named.2 ⟨hr', hw'⟩, hn⟩
  case refine_2 =>
    intro ⟨r, hr, r', hr', hn⟩
    have hm {r} (h : r ∈ named rows) :
        r.workerId ∈ ((rows.map (·.workerId)).filter fun w => !w.isEmpty).toFinset := by
      have ⟨hr, hw⟩ := mem_named.1 h
      exact List.mem_toFinset.mpr (List.mem_filter.mpr ⟨List.mem_map_of_mem hr, hw⟩)
    exact ⟨r.workerId, hm hr, r'.workerId, hm hr', hn⟩

theorem sum_windows {f : WindowAcc H → ℕ} {m : WindowWithHdr → ℕ} (hd : f ⟨0, 0, ∅, none⟩ = 0)
    (hf : ∀ w r, f (w.add codecs r) = f w + m r) :
    (accumulate codecs rows).windows.sum (fun _ => f) = (rows.map m).sum := by
  have h := Table.foldl_measure (F := Acc.addRow codecs (multiWorker rows)) (m := m)
    (M := fun acc => acc.windows.sum fun _ => f)
    (fun _ r => SortedTable.sum_update hd fun w _ => hf w r) Acc.empty rows
  rw [accumulate, h]
  exact Nat.zero_add _

-- A window adds up the rows of its step and second.
theorem lookup_windows {f : WindowAcc H → ℕ} {m : WindowWithHdr → ℕ} {key : ℤ ×ₗ Name}
    (hd : f ⟨0, 0, ∅, none⟩ = 0) (hf : ∀ w r, f (w.add codecs r) = f w + m r) :
    ((accumulate codecs rows).windows.lookup key).elim 0 f =
      (rows.map fun r => if r.key = key then m r else 0).sum := by
  have hs (acc : Acc H) (r) : ((acc.addRow codecs (multiWorker rows) r).windows.lookup key).elim 0 f =
      (acc.windows.lookup key).elim 0 f + if r.key = key then m r else 0 := by
    simp only [Acc.addRow, SortedTable.lookup_update, eq_comm (a := key)]
    split_ifs
    case neg => rfl
    case pos h =>
      rw [h, Option.elim_some, hf]
      cases acc.windows.lookup key
      case none => exact congrArg (· + m r) hd
      case some => rfl
  have h := Table.foldl_measure (M := fun acc => (acc.windows.lookup key).elim 0 f) hs Acc.empty rows
  rw [accumulate, h]
  exact Nat.zero_add _

theorem sum_steps {f : StepAcc → ℕ} {m : WindowWithHdr → ℕ} (hd : f ⟨0, 0, ∅⟩ = 0)
    (hf : ∀ s r, f (s.add codecs r) = f s + m r) :
    (accumulate codecs rows).perStepCount.sum (fun _ => f) = (rows.map m).sum := by
  have h := Table.foldl_measure (F := Acc.addRow codecs (multiWorker rows)) (m := m)
    (M := fun acc => acc.perStepCount.sum fun _ => f)
    (fun _ r => SortedTable.sum_update hd fun s _ => hf s r) Acc.empty rows
  rw [accumulate, h]
  exact Nat.zero_add _

-- The rows of workers without a name are not in the breakdown.
theorem sum_workers {f : WorkerAcc H → ℕ} {m : WindowWithHdr → ℕ} (hm : multiWorker rows)
    (hd : f ⟨0, 0, none⟩ = 0) (hf : ∀ w r, f (w.add codecs r) = f w + m r) :
    (accumulate codecs rows).workers.sum (fun _ => f) =
      ((named rows).map m).sum := by
  have hs (acc : Acc H) (r) : (acc.addRow codecs true r).workers.sum (fun _ => f) =
      acc.workers.sum (fun _ => f) + if !r.workerId.isEmpty then m r else 0 := by
    cases hw : r.workerId.isEmpty
    case true => simp [Acc.addRow, hw]
    case false =>
      simp only [Acc.addRow, hw, Bool.not_false, Bool.and_self, if_true]
      exact SortedTable.sum_update hd fun w _ => hf w r
  have h := Table.foldl_measure (M := fun acc => acc.workers.sum fun _ => f) hs Acc.empty rows
  rw [accumulate, hm, h]
  refine (Nat.zero_add _).trans ?_
  rw [List.sum_map_ite]
  simp [named]

theorem workers_of_single (h : ¬multiWorker rows) : (accumulate codecs rows).workers = ∅ := by
  have hf (acc : Acc H) (l : List WindowWithHdr) (he : acc.workers = ∅) :
      (l.foldl (Acc.addRow codecs false) acc).workers = ∅ := by
    induction l generalizing acc
    case nil => exact he
    case cons r l ih => exact ih _ he
  rw [accumulate, Bool.eq_false_iff.mpr h]
  exact hf _ _ rfl

theorem mem_windows {key : ℤ ×ₗ Name} :
    key ∈ (accumulate codecs rows).windows ↔ ∃ r ∈ rows, r.key = key := by
  have hf (multi) (acc : Acc H) (l : List WindowWithHdr) :
      key ∈ (l.foldl (Acc.addRow codecs multi) acc).windows ↔
        key ∈ acc.windows ∨ ∃ r ∈ l, r.key = key := by
    induction l generalizing acc
    case nil => simp
    case cons r l ih =>
      rw [List.foldl_cons, ih]
      have hu : key ∈ (acc.addRow codecs multi r).windows ↔ key = r.key ∨ key ∈ acc.windows :=
        SortedTable.mem_update
      simp only [hu, List.mem_cons, exists_eq_or_imp]
      rw [eq_comm (a := key), or_assoc, or_left_comm]
  rw [accumulate, hf]
  simp [Acc.empty, Finmap.notMem_empty]

end Rows

-- What a part of the report adds up to.
structure Totals where
  count  : ℕ
  errors : ℕ
  status : Name → ℕ

section Report

variable {H D B R : Type*} [AddCommMonoid H] {codecs : Codecs H D} {breakdown : Name → B}
  {derive : ReportSummary → List ReportWindow → List (ReportStep B) → StatusCounts → R}
  {rows rows' : List WindowWithHdr}

def rowTotals (codecs : Codecs H D) (rows : List WindowWithHdr) : Totals where
  count  := (rows.map (·.count)).sum
  errors := (rows.map (·.errorCount)).sum
  status := fun code => (rows.map (·.status codecs code)).sum

def windowTotals (report : ReportJson D B R) : Totals where
  count  := (report.windows.map (·.count)).sum
  errors := (report.windows.map (·.errorCount)).sum
  status := fun code => (report.windows.map fun w => statusCount w.statusCounts code).sum

def stepTotals (report : ReportJson D B R) : Totals where
  count  := (report.steps.map (·.count)).sum
  errors := (report.steps.map (·.errorCount)).sum
  status := fun code => (report.steps.map fun s => statusCount s.statusCounts code).sum

def summaryTotals (report : ReportJson D B R) : Totals where
  count  := report.summary.count
  errors := report.summary.errors
  status := statusCount report.statusDistribution

-- A report that counts everything in the rows exactly once in each of its parts.
structure Conserves (codecs : Codecs H D) (rows : List WindowWithHdr) (report : ReportJson D B R) :
    Prop where
  windows    : windowTotals report = rowTotals codecs rows
  steps      : stepTotals report = rowTotals codecs rows
  summary    : summaryTotals report = rowTotals codecs rows
  unique     : (report.windows.map fun w => (w.tsSecond, w.stepId)).Nodup
  present    : ∀ key, key ∈ report.windows.map (fun w => (w.tsSecond, w.stepId)) ↔
    ∃ r ∈ rows, (r.tsSecond, r.stepId) = key
  workers    : SeveralWorkers rows →
    (report.workerBreakdown.map (·.count)).sum = ((named rows).map (·.count)).sum ∧
    (report.workerBreakdown.map (·.errors)).sum = ((named rows).map (·.errorCount)).sum
  worker     : ¬SeveralWorkers rows → report.workerBreakdown = []

theorem sum_report_windows {f : ReportWindow → ℕ} {g : WindowAcc H → ℕ}
    (h : ∀ ts stepId w p, f ⟨ts, stepId, w.count, w.errorCount, w.status, p⟩ = g w) :
    ((buildReport codecs breakdown derive rows).windows.map f).sum =
      (accumulate codecs rows).windows.sum fun _ => g := by
  rw [← SortedTable.sum_toList]
  simp [buildReport, Function.comp_def, h]

theorem sum_report_steps {f : ReportStep B → ℕ} {g : StepAcc → ℕ}
    (h : ∀ stepId s p b, f ⟨stepId, s.count, s.errorCount, s.status, p, b⟩ = g s) :
    ((buildReport codecs breakdown derive rows).steps.map f).sum =
      (accumulate codecs rows).perStepCount.sum fun _ => g := by
  rw [← SortedTable.sum_toList]
  simp [buildReport, Function.comp_def, h]

theorem sum_report_workers {f : WorkerBreakdown → ℕ} {g : WorkerAcc H → ℕ}
    (h : ∀ workerId w p, f ⟨workerId, w.count, w.errors, p⟩ = g w) :
    ((buildReport codecs breakdown derive rows).workerBreakdown.map f).sum =
      (accumulate codecs rows).workers.sum fun _ => g := by
  rw [← SortedTable.sum_toList]
  simp [buildReport, Function.comp_def, h]

theorem windows_keys :
    (buildReport codecs breakdown derive rows).windows.map (fun w => (w.tsSecond, w.stepId)) =
      ((accumulate codecs rows).windows.toList.map Prod.fst).map ofLex := by
  simp [buildReport, Function.comp_def]

theorem mem_windows_keys {key : ℤ × Name} :
    key ∈ (buildReport codecs breakdown derive rows).windows.map (fun w => (w.tsSecond, w.stepId)) ↔
      ∃ r ∈ rows, (r.tsSecond, r.stepId) = key := by
  have h : toLex key ∈ (accumulate codecs rows).windows ↔ _ := mem_windows
  have hk : key ∈ ((accumulate codecs rows).windows.toList.map Prod.fst).map ofLex ↔
      toLex key ∈ (accumulate codecs rows).windows.toList.map Prod.fst :=
    List.mem_map_of_injective ofLex.injective (a := toLex key)
  rw [windows_keys, hk]
  exact SortedTable.mem_map_fst_toList.trans h

theorem window_counts {win : ReportWindow}
    (h : win ∈ (buildReport codecs breakdown derive rows).windows) :
    win.count = (rows.map fun r =>
      if r.key = toLex (win.tsSecond, win.stepId) then r.count else 0).sum ∧
    win.errorCount = (rows.map fun r =>
      if r.key = toLex (win.tsSecond, win.stepId) then r.errorCount else 0).sum := by
  have ⟨⟨k, w⟩, hm, he⟩ := List.mem_map.mp h
  have hl := SortedTable.mem_toList.mp hm
  subst he
  have hk : toLex ((ofLex k).1, (ofLex k).2) = k := rfl
  have hc : ((accumulate codecs rows).windows.lookup k).elim 0 (·.count) = _ :=
    lookup_windows rfl fun _ _ => rfl
  have he : ((accumulate codecs rows).windows.lookup k).elim 0 (·.errorCount) = _ :=
    lookup_windows rfl fun _ _ => rfl
  rw [hl] at hc he
  exact ⟨hk ▸ hc, hk ▸ he⟩

theorem windowTotals_eq :
    windowTotals (buildReport codecs breakdown derive rows) = rowTotals codecs rows := by
  simp only [windowTotals, rowTotals, Totals.mk.injEq]
  refine ⟨?count, ?errors, funext fun code => ?status⟩
  case count =>
    exact (sum_report_windows (g := (·.count)) fun _ _ _ _ => rfl).trans
      (sum_windows rfl fun _ _ => rfl)
  case errors =>
    exact (sum_report_windows (g := (·.errorCount)) fun _ _ _ _ => rfl).trans
      (sum_windows rfl fun _ _ => rfl)
  case status =>
    exact (sum_report_windows (g := (statusCount ·.status code)) fun _ _ _ _ => rfl).trans
      (sum_windows rfl fun _ _ => statusCount_addStatus)

theorem stepTotals_eq :
    stepTotals (buildReport codecs breakdown derive rows) = rowTotals codecs rows := by
  simp only [stepTotals, rowTotals, Totals.mk.injEq]
  refine ⟨?count, ?errors, funext fun code => ?status⟩
  case count =>
    exact (sum_report_steps (g := (·.count)) fun _ _ _ _ => rfl).trans
      (sum_steps rfl fun _ _ => rfl)
  case errors =>
    exact (sum_report_steps (g := (·.errorCount)) fun _ _ _ _ => rfl).trans
      (sum_steps rfl fun _ _ => rfl)
  case status =>
    exact (sum_report_steps (g := (statusCount ·.status code)) fun _ _ _ _ => rfl).trans
      (sum_steps rfl fun _ _ => statusCount_addStatus)

theorem summaryTotals_eq :
    summaryTotals (buildReport codecs breakdown derive rows) = rowTotals codecs rows := by
  have h (M : Acc H → ℕ) (m) (he : M Acc.empty = 0)
      (hm : ∀ acc r, M (acc.addRow codecs (multiWorker rows) r) = M acc + m r) :
      M (accumulate codecs rows) = (rows.map m).sum := by
    rw [accumulate, Table.foldl_measure hm, he, Nat.zero_add]
  simp only [summaryTotals, rowTotals, Totals.mk.injEq]
  refine ⟨?count, ?errors, funext fun code => ?status⟩
  case count => exact h (·.totalCount) _ rfl fun _ _ => rfl
  case errors => exact h (·.totalErrors) _ rfl fun _ _ => rfl
  case status => exact h (statusCount ·.statusDist code) _ rfl fun _ _ => statusCount_addStatus

theorem workerBreakdown_of_single (h : ¬SeveralWorkers rows) :
    (buildReport codecs breakdown derive rows).workerBreakdown = [] := by
  have hw : (accumulate codecs rows).workers = ∅ :=
    workers_of_single (mt multiWorker_iff.1 h)
  have hl : (∅ : SortedTable Name (WorkerAcc H)).toList = [] := by
    simp [SortedTable.toList]
  simp [buildReport, hw, hl]

-- The report counts every row once in the windows, in the steps and in the summary, and what it
-- says does not depend on the order of the rows.
theorem build_report_conserves (rows : List WindowWithHdr) :
    Conserves codecs rows (buildReport codecs breakdown derive rows) ∧
    ∀ rows', rows.Perm rows' →
      buildReport codecs breakdown derive rows' = buildReport codecs breakdown derive rows := by
  refine ⟨⟨windowTotals_eq, stepTotals_eq, summaryTotals_eq, ?unique, ?present, ?workers,
    workerBreakdown_of_single⟩, ?perm⟩
  case unique =>
    rw [windows_keys]
    exact SortedTable.nodup_toList.map ofLex.injective
  case present => exact fun _ => mem_windows_keys
  case workers =>
    intro h
    have hm := multiWorker_iff.2 h
    refine ⟨?_, ?_⟩
    · exact (sum_report_workers (g := (·.count)) fun _ _ _ => rfl).trans
        (sum_workers hm rfl fun _ _ => rfl)
    · exact (sum_report_workers (g := (·.errors)) fun _ _ _ => rfl).trans
        (sum_workers hm rfl fun _ _ => rfl)
  case perm =>
    intro rows' h
    rw [buildReport, buildReport, accumulate_perm h]

-- One request of a worker with a name.
def soleRow : WindowWithHdr :=
  ⟨0, ⟨"step"⟩, ⟨"worker"⟩, 1, 0, "\x7b\x7d", []⟩

-- Texts without status codes, and no histograms.
def bareCodecs : Codecs ℕ Unit where
  parseStatusCounts := fun _ => ∅
  decodeHdr         := fun _ => none
  percentilesOf     := fun _ => Percentiles.empty
  meanMs            := fun _ => 0
  isEmpty           := (· == 0)
  distribution      := fun _ => ()

-- The breakdown of a run with a single worker does not add up to its rows: there is none.
theorem build_report_conserves_counterexample :
    ((buildReport bareCodecs (fun _ => ()) (fun _ _ _ _ => ()) [soleRow]).workerBreakdown.map
      (·.count)).sum ≠ ((named [soleRow]).map (·.count)).sum := by
  have h : ¬SeveralWorkers [soleRow] := by
    simp [SeveralWorkers, named]
  rw [workerBreakdown_of_single h]
  decide

end Report

end Report
