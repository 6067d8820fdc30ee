import Handicap.Engine.Aggregator

namespace Engine

-- The numbers that the metrics of a run consist of.
inductive Metric
  | requests (stepId : String) (second : ℤ)
  | errors (stepId : String) (second : ℤ)
  | status (stepId : String) (second : ℤ) (code : ℕ)
  | loop (stepId : String) (index : ℕ)
  | loopErrors (stepId : String) (index : ℕ)
  | branch (stepId branch : String)
  | group (stepId branch : String)
  | phase (stepId phase : String)
  | errorKind (stepId : String) (kind : ErrorKind)
  | dropped
  deriving DecidableEq

-- What a metric is increased by, if it is the given one.
def Metric.one (n : ℕ) (m m' : Metric) : ℕ :=
  if m = m' then n else 0

@[simp]
theorem Metric.one_zero {m m' : Metric} : one 0 m m' = 0 := by
  simp [one]

theorem Metric.one_add {n k : ℕ} {m m' : Metric} : one (n + k) m m' = one n m m' + one k m m' := by
  unfold one
  split <;> rfl

def StepWindow.tally (w : StepWindow) (m : Metric) : ℕ :=
  Metric.one w.count (.requests w.stepId w.tsSecond) m +
    Metric.one w.errorCount (.errors w.stepId w.tsSecond) m +
    w.statusCounts.sum fun code n => Metric.one n (.status w.stepId w.tsSecond code) m

def LoopStat.tally (l : LoopStat) (m : Metric) : ℕ :=
  Metric.one l.count (.loop l.stepId l.loopIndex) m +
    Metric.one l.errorCount (.loopErrors l.stepId l.loopIndex) m

def BranchStat.tally (b : BranchStat) : Metric → ℕ :=
  Metric.one b.count (.branch b.stepId b.branch)

def GroupStat.tally (g : GroupStat) : Metric → ℕ :=
  Metric.one g.count (.group g.stepId g.branch)

def PhaseStat.tally (p : PhaseStat) : Metric → ℕ :=
  Metric.one p.count (.phase p.stepId p.phase)

def ErrorKindStat.tally (e : ErrorKindStat) : Metric → ℕ :=
  Metric.one e.count (.errorKind e.stepId e.kind)

-- What a batch adds to a metric.
def MetricFlush.tally (f : MetricFlush) (m : Metric) : ℕ :=
  (f.windows.map (·.tally m)).sum + (f.loopStats.map (·.tally m)).sum +
    (f.branchStats.map (·.tally m)).sum + (f.groupStats.map (·.tally m)).sum +
    (f.phaseStats.map (·.tally m)).sum + (f.errorKindStats.map (·.tally m)).sum +
    Metric.one f.dropped .dropped m

-- What a request adds to the window of its second.
def windowTally (ts : ℤ) (stepId : String) (status : ℕ) (isError : Bool) (m : Metric) : ℕ :=
  Metric.one 1 (.requests stepId ts) m + Metric.one isError.toNat (.errors stepId ts) m +
    Metric.one 1 (.status stepId ts status) m

def loopTally (loopCap : ℕ) (stepId : String) (isError : Bool) (loopIndex : Option ℕ)
    (m : Metric) : ℕ :=
  match loopIndex with
  | some i =>
    if 0 < loopCap then
      let bucket := if i < loopCap then i else loopOverflow
      Metric.one 1 (.loop stepId bucket) m + Metric.one isError.toNat (.loopErrors stepId bucket) m
    else
      0
  | none => 0

def Record.tally (loopCap : ℕ) : Record → Metric → ℕ
  | .request ts stepId _ status isError loopIndex, m =>
    windowTally ts stepId status isError m + loopTally loopCap stepId isError loopIndex m
  | .branch stepId b, m       => Metric.one 1 (.branch stepId b) m
  | .errorKind stepId kind, m => Metric.one 1 (.errorKind stepId kind) m
  | .group stepId b _, m      => Metric.one 1 (.group stepId b) m
  | .phase stepId p _, m      => Metric.one 1 (.phase stepId p) m
  | .activeVu .., _           => 0

namespace Aggregator

-- What the aggregator holds of a metric.
def tally (a : Aggregator) (m : Metric) : ℕ :=
  a.windows.sum (fun _ w => w.tally m) +
    a.loopCounts.sum (fun k c => LoopStat.tally ⟨k.1, k.2, c.count, c.errorCount⟩ m) +
    a.branchCounts.sum (fun k n => BranchStat.tally ⟨k.1, k.2, n⟩ m) +
    a.groupHists.sum (fun k h => GroupStat.tally ⟨k.1, k.2, h.1, h.2⟩ m) +
    a.phaseHists.sum (fun k h => PhaseStat.tally ⟨k.1, k.2, h.1, h.2⟩ m) +
    a.errorKindCounts.sum (fun k n => ErrorKindStat.tally ⟨k.1, k.2, n⟩ m)

-- Every window is kept under its own step and second.
def Keyed (a : Aggregator) : Prop :=
  ∀ k w, a.windows.lookup k = some w → (w.stepId, w.tsSecond) = k

variable {a : Aggregator} {r : Record} {m : Metric} {cap : ℕ}

theorem keyed_new : (new cap).Keyed :=
  nofun

@[simp]
theorem tally_new : (new cap).tally m = 0 :=
  rfl

theorem tally_window_new {stepId : String} {ts : ℤ} : (StepWindow.new stepId ts).tally m = 0 := by
  simp [StepWindow.tally, StepWindow.new]

theorem toNat_add (b : Bool) (n : ℕ) : (if b then n + 1 else n) = n + b.toNat := by
  cases b <;> rfl

theorem tally_window_record (w : StepWindow) (latencyUs status : ℕ) (isError : Bool) :
    (w.record latencyUs status isError).tally m =
      w.tally m + windowTally w.tsSecond w.stepId status isError m := by
  have hs := Table.sum_update (t := w.statusCounts) (k := status) (d := 0) (g := (· + 1))
    (f := fun code n => Metric.one n (.status w.stepId w.tsSecond code) m)
    (n := Metric.one 1 (.status w.stepId w.tsSecond status) m) Metric.one_zero
    fun _ _ => Metric.one_add
  simp only [StepWindow.tally, StepWindow.record, windowTally, toNat_add, Metric.one_add, hs]
  ring

theorem keyed_apply (h : a.Keyed) : (a.apply r).Keyed := by
  cases r
  case request ts stepId latencyUs status isError loopIndex =>
    intro k w hw
    simp only [apply, record, Table.update] at hw
    cases Decidable.em (k = (stepId, ts))
    case inl hk =>
      subst hk
      rw [AList.lookup_insert] at hw
      cases hw
      cases hl : a.windows.lookup (stepId, ts)
      case none => rfl
      case some w => exact h _ w hl
    case inr hk =>
      rw [AList.lookup_insert_ne hk] at hw
      exact h k w hw
  all_goals exact h

theorem loopCap_apply : (a.apply r).loopCap = a.loopCap := by
  cases r <;> rfl

theorem sum_record_windows (h : a.Keyed) (ts : ℤ) (stepId : String) (latencyUs status : ℕ)
    (isError : Bool) (loopIndex : Option ℕ) :
    (a.record ts stepId latencyUs status isError loopIndex).windows.sum (fun _ w => w.tally m) =
      a.windows.sum (fun _ w => w.tally m) + windowTally ts stepId status isError m := by
  refine Table.sum_update (f := fun _ w => StepWindow.tally w m) tally_window_new fun w hw => ?_
  have hk : (w.stepId, w.tsSecond) = (stepId, ts) := by
    cases hw
    case inl hw => exact h _ w hw
    case inr hw => rw [hw]; rfl
  have ⟨hs, ht⟩ := Prod.mk.inj hk
  rw [tally_window_record, hs, ht]

theorem sum_record_loops (ts : ℤ) (stepId : String) (latencyUs status : ℕ) (isError : Bool)
    (loopIndex : Option ℕ) :
    (a.record ts stepId latencyUs status isError loopIndex).loopCounts.sum
      (fun k c => LoopStat.tally ⟨k.1, k.2, c.count, c.errorCount⟩ m) =
    a.loopCounts.sum (fun k c => LoopStat.tally ⟨k.1, k.2, c.count, c.errorCount⟩ m) +
      loopTally a.loopCap stepId isError loopIndex m := by
  cases loopIndex
  case none => rfl
  case some i =>
    cases Decidable.em (0 < a.loopCap)
    case inr h =>
      simp only [record, loopTally, if_neg h]
      rfl
    case inl h =>
      simp only [record, loopTally, if_pos h]
      refine Table.sum_update (by simp [LoopStat.tally]) fun c _ => ?_
      simp only [LoopStat.tally, loopBucket, toNat_add, Metric.one_add]
      ring

theorem tally_apply (h : a.Keyed) : (a.apply r).tally m = a.tally m + r.tally a.loopCap m := by
  cases r
  case request ts stepId latencyUs status isError loopIndex =>
    simp only [tally, apply, Record.tally, sum_record_windows h, sum_record_loops]
    simp only [record]
    ring
  case branch stepId b =>
    have hb := Table.sum_update (t := a.branchCounts) (k := (stepId, b)) (d := 0) (g := (· + 1))
      (f := fun k n => BranchStat.tally ⟨k.1, k.2, n⟩ m) (n := Metric.one 1 (.branch stepId b) m)
      Metric.one_zero fun _ _ => Metric.one_add
    simp only [tally, apply, recordBranch, Record.tally, hb]
    ring
  case errorKind stepId kind =>
    have he := Table.sum_update (t := a.errorKindCounts) (k := (stepId, kind)) (d := 0)
      (g := (· + 1)) (f := fun k n => ErrorKindStat.tally ⟨k.1, k.2, n⟩ m)
      (n := Metric.one 1 (.errorKind stepId kind) m) Metric.one_zero fun _ _ => Metric.one_add
    simp only [tally, apply, recordErrorKind, Record.tally, he]
    ring
  case group stepId b latencyUs =>
    have hg := Table.sum_update (t := a.groupHists) (k := (stepId, b)) (d := ([], 0))
      (g := fun h => (clampLatency latencyUs :: h.1, h.2 + 1))
      (f := fun k h => GroupStat.tally ⟨k.1, k.2, h.1, h.2⟩ m)
      (n := Metric.one 1 (.group stepId b) m) Metric.one_zero fun _ _ => Metric.one_add
    simp only [tally, apply, recordGroup, Record.tally, hg]
    ring
  case phase stepId p latencyUs =>
    have hp := Table.sum_update (t := a.phaseHists) (k := (stepId, p)) (d := ([], 0))
      (g := fun h => (clampLatency latencyUs :: h.1, h.2 + 1))
      (f := fun k h => PhaseStat.tally ⟨k.1, k.2, h.1, h.2⟩ m)
      (n := Metric.one 1 (.phase stepId p) m) Metric.one_zero fun _ _ => Metric.one_add
    simp only [tally, apply, recordPhase, Record.tally, hp]
    ring
  case activeVu => rfl

end Aggregator

end Engine
