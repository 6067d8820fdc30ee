import Handicap.Engine.Flush
import Handicap.Engine.Theorems.Aggregator

namespace Engine

variable {driver : Driver} {a : Aggregator} {m : Metric} {now : ℤ} {n : ℕ} {f : MetricFlush}

namespace Aggregator

-- Each drain takes out of the aggregator what it returns.
theorem tally_drainCompleted (now : ℤ) :
    ((a.drainCompleted now).1.map (·.tally m)).sum + (a.drainCompleted now).2.tally m =
      a.tally m := by
  have h := Table.sum_extract (t := a.windows) (f := fun _ w => StepWindow.tally w m)
    (p := (·.2 < now))
  simp only [drainCompleted, tally, ← h, List.map_map, Function.comp_def]
  ring

theorem tally_drainAll :
    (a.drainAll.1.map (·.tally m)).sum + a.drainAll.2.tally m = a.tally m := by
  have h := Table.sum_toList (t := a.windows) (f := fun _ w => StepWindow.tally w m)
  simp only [drainAll, tally, h, Table.sum_empty, List.map_map, Function.comp_def]
  ring

theorem tally_drainLoopDeltas :
    (a.drainLoopDeltas.1.map (·.tally m)).sum + a.drainLoopDeltas.2.tally m = a.tally m := by
  have h := Table.sum_toList (t := a.loopCounts)
    (f := fun k c => LoopStat.tally ⟨k.1, k.2, c.count, c.errorCount⟩ m)
  simp only [drainLoopDeltas, tally, h, Table.sum_empty, List.map_map, Function.comp_def]
  ring

theorem tally_drainBranchDeltas :
    (a.drainBranchDeltas.1.map (·.tally m)).sum + a.drainBranchDeltas.2.tally m = a.tally m := by
  have h := Table.sum_toList (t := a.branchCounts)
    (f := fun k n => BranchStat.tally ⟨k.1, k.2, n⟩ m)
  simp only [drainBranchDeltas, tally, h, Table.sum_empty, List.map_map, Function.comp_def]
  ring

theorem tally_drainGroupDeltas :
    (a.drainGroupDeltas.1.map (·.tally m)).sum + a.drainGroupDeltas.2.tally m = a.tally m := by
  have h := Table.sum_toList (t := a.groupHists)
    (f := fun k h => GroupStat.tally ⟨k.1, k.2, h.1, h.2⟩ m)
  simp only [drainGroupDeltas, tally, h, Table.sum_empty, List.map_map, Function.comp_def]
  ring

theorem tally_drainPhaseDeltas :
    (a.drainPhaseDeltas.1.map (·.tally m)).sum + a.drainPhaseDeltas.2.tally m = a.tally m := by
  have h := Table.sum_toList (t := a.phaseHists)
    (f := fun k h => PhaseStat.tally ⟨k.1, k.2, h.1, h.2⟩ m)
  simp only [drainPhaseDeltas, tally, h, Table.sum_empty, List.map_map, Function.comp_def]
  ring

theorem tally_drainErrorKindDeltas :
    (a.drainErrorKindDeltas.1.map (·.tally m)).sum + a.drainErrorKindDeltas.2.tally m =
      a.tally m := by
  have h := Table.sum_toList (t := a.errorKindCounts)
    (f := fun k n => ErrorKindStat.tally ⟨k.1, k.2, n⟩ m)
  simp only [drainErrorKindDeltas, tally, h, Table.sum_empty, List.map_map, Function.comp_def]
  ring

section

variable {drainWindows : Aggregator → List StepWindow × Aggregator}
variable {drainGauge : Aggregator → List ActiveVuSample × Aggregator}

-- The gauge of the active VUs is no count.
theorem tally_drainBatch
    (hw : ∀ a, ((drainWindows a).1.map (·.tally m)).sum + (drainWindows a).2.tally m = a.tally m)
    (hg : ∀ a, (drainGauge a).2.tally m = a.tally m) :
    (a.drainBatch driver n drainWindows drainGauge).1.tally m +
      (a.drainBatch driver n drainWindows drainGauge).2.tally m =
      a.tally m + Metric.one n .dropped m := by
  have h1 := hw a
  simp only [drainBatch, MetricFlush.tally]
  generalize (drainWindows a).2 = a1 at h1 ⊢
  have h2 := a1.tally_drainLoopDeltas (m := m)
  generalize a1.drainLoopDeltas.2 = a2 at h2 ⊢
  have h3 := a2.tally_drainBranchDeltas (m := m)
  generalize a2.drainBranchDeltas.2 = a3 at h3 ⊢
  have h4 := a3.tally_drainGroupDeltas (m := m)
  generalize a3.drainGroupDeltas.2 = a4 at h4 ⊢
  have h5 := a4.tally_drainPhaseDeltas (m := m)
  generalize a4.drainPhaseDeltas.2 = a5 at h5 ⊢
  have h6 : (if driver = .vuCurve then drainGauge a5 else ([], a5)).2.tally m = a5.tally m := by
    split
    case isTrue => exact hg a5
    case isFalse => rfl
  generalize (if driver = .vuCurve then drainGauge a5 else ([], a5)).2 = a6 at h6 ⊢
  have h7 := a6.tally_drainErrorKindDeltas (m := m)
  omega

-- A drain that leaves no windows behind leaves nothing behind.
theorem tally_drainBatch_eq_zero (hw : ∀ a, (drainWindows a).2.windows = ∅)
    (hg : ∀ a, ∃ t, (drainGauge a).2 = { a with activeVu := t }) :
    (a.drainBatch driver n drainWindows drainGauge).2.tally m = 0 := by
  have h := hw a
  simp only [drainBatch]
  generalize (drainWindows a).2 = a1 at h ⊢
  split_ifs
  case pos =>
    have ⟨t, ht⟩ := hg a1.drainLoopDeltas.2.drainBranchDeltas.2.drainGroupDeltas.2.drainPhaseDeltas.2
    simp only [ht]
    simp [tally, drainLoopDeltas, drainBranchDeltas, drainGroupDeltas, drainPhaseDeltas,
      drainErrorKindDeltas, h]
  case neg =>
    simp [tally, drainLoopDeltas, drainBranchDeltas, drainGroupDeltas, drainPhaseDeltas,
      drainErrorKindDeltas, h]

theorem drainBatch_windows (hg : ∀ a, ∃ t, (drainGauge a).2 = { a with activeVu := t }) :
    (a.drainBatch driver n drainWindows drainGauge).2.windows = (drainWindows a).2.windows ∧
    (a.drainBatch driver n drainWindows drainGauge).2.loopCap = (drainWindows a).2.loopCap := by
  simp only [drainBatch]
  generalize (drainWindows a).2 = a1
  split_ifs
  case pos =>
    have ⟨t, ht⟩ := hg a1.drainLoopDeltas.2.drainBranchDeltas.2.drainGroupDeltas.2.drainPhaseDeltas.2
    simp only [ht]
    exact ⟨rfl, rfl⟩
  case neg => exact ⟨rfl, rfl⟩

end

theorem tally_drainTick (driver : Driver) (now : ℤ) :
    (a.drainTick driver now).1.tally m + (a.drainTick driver now).2.tally m = a.tally m := by
  have h : (a.drainTick driver now).1.tally m + (a.drainTick driver now).2.tally m =
      a.tally m + Metric.one 0 .dropped m :=
    tally_drainBatch (fun _ => tally_drainCompleted now) fun _ => rfl
  rwa [Metric.one_zero] at h

theorem tally_drainFinal (driver : Driver) (n : ℕ) :
    (a.drainFinal driver n).1.tally m + (a.drainFinal driver n).2.tally m =
      a.tally m + Metric.one n .dropped m :=
  tally_drainBatch (fun _ => tally_drainAll) fun _ => rfl

theorem tally_drainFinal_eq_zero (driver : Driver) (n : ℕ) :
    (a.drainFinal driver n).2.tally m = 0 :=
  tally_drainBatch_eq_zero (fun _ => rfl) fun _ => ⟨_, rfl⟩

theorem keyed_drainTick (driver : Driver) (now : ℤ) (h : a.Keyed) :
    (a.drainTick driver now).2.Keyed := by
  intro k w hw
  rw [drainTick, (drainBatch_windows fun _ => ⟨_, rfl⟩).left] at hw
  exact h k w (Table.lookup_of_extract (p := (·.2 < now)) hw)

theorem keyed_drainFinal (driver : Driver) (n : ℕ) : (a.drainFinal driver n).2.Keyed := by
  intro k w hw
  rw [drainFinal, (drainBatch_windows fun _ => ⟨_, rfl⟩).left] at hw
  cases hw

theorem loopCap_drainTick (driver : Driver) (now : ℤ) :
    (a.drainTick driver now).2.loopCap = a.loopCap :=
  (drainBatch_windows fun _ => ⟨_, rfl⟩).right

theorem loopCap_drainFinal (driver : Driver) (n : ℕ) :
    (a.drainFinal driver n).2.loopCap = a.loopCap :=
  (drainBatch_windows fun _ => ⟨_, rfl⟩).right

end Aggregator

-- What is drained but has not been sent.
def Flusher.held : Flusher → Metric → ℕ
  | sending f, m => f.tally m
  | _,         _ => 0

def MainTask.held : MainTask → Metric → ℕ
  | sending f, m => f.tally m
  | _,         _ => 0

-- The drops are with the driver until its final drain.
def MainTask.isOpen : MainTask → Bool
  | running | joined => true
  | _                => false

def MainTask.drops (n : ℕ) (t : MainTask) (m : Metric) : ℕ :=
  if t.isOpen then Metric.one n .dropped m else 0

namespace Flushing

variable {s : Flushing} {e : FlushEvent} {events : List FlushEvent} {cap capacity : ℕ}

-- What is or will be delivered, as long as nobody is stopped.
def arrived (s : Flushing) (m : Metric) : ℕ :=
  ((s.delivered ++ s.channel.queue).map (·.tally m)).sum

def kept (s : Flushing) (m : Metric) : ℕ :=
  s.flusher.held m + s.main.held m + s.agg.tally m + s.main.drops s.dropped m

-- All that the VUs have recorded, and the drops of the run.
def made (s : Flushing) (m : Metric) : ℕ :=
  (s.recorded.map (·.tally s.agg.loopCap m)).sum + Metric.one s.dropped .dropped m

structure Accounted (driver : Driver) (s : Flushing) : Prop where
  keyed   : s.agg.Keyed
  dropped : driver ≠ .openLoop → s.dropped = 0
  drained : s.main.isOpen = false → ∀ m, s.agg.tally m = 0
  stopped : ∀ o, s.main = .returned o → s.flusher = .stopped

-- The flusher is stopped by the driver.
def Stops (s : Flushing) (e : FlushEvent) : Prop :=
  e = .flusherStopped ∧ s.main = .aborting

instance : Decidable (s.Stops e) :=
  inferInstanceAs (Decidable (_ ∧ _))

def lost (s : Flushing) (e : FlushEvent) (m : Metric) : ℕ :=
  if s.Stops e then s.flusher.held m else 0

theorem tally_of_not_hasData (h : f.hasData = false) (hd : f.dropped = 0) : f.tally m = 0 := by
  simp only [MetricFlush.hasData, Bool.or_eq_false_iff, Bool.not_eq_eq_eq_not, Bool.not_false,
    List.isEmpty_iff] at h
  simp [MetricFlush.tally, h, hd]

theorem send_queue (c : FlushChannel) (sender : Sender) (f : MetricFlush) :
    (c.send sender f).2.queue = c.queue ++ if (c.send sender f).1 then [f] else [] := by
  unfold FlushChannel.send
  split <;> simp

theorem poll_queue (c : FlushChannel) (sender : Sender) (f : MetricFlush) :
    (c.poll sender f).2.queue = c.queue ++ if (c.poll sender f).1 then [f] else [] := by
  unfold FlushChannel.poll
  split <;> simp

@[simp]
theorem release_queue (c : FlushChannel) : c.release.queue = c.queue := by
  unfold FlushChannel.release
  split <;> rfl

@[simp]
theorem forget_queue (c : FlushChannel) (sender : Sender) : (c.forget sender).queue = c.queue := by
  unfold FlushChannel.forget
  split <;> simp

theorem tick_balance (driver : Driver) (now : ℤ) (h : s.flusher = .idle) :
    (s.tick driver now).arrived m + (s.tick driver now).kept m + s.made m =
      s.arrived m + s.kept m + (s.tick driver now).made m := by
  have ht := s.agg.tally_drainTick driver now (m := m)
  have hl := s.agg.loopCap_drainTick driver now
  have hd : (s.agg.drainTick driver now).1.dropped = 0 := rfl
  simp only [tick]
  generalize s.agg.drainTick driver now = x at ht hl hd
  cases hh : x.1.hasData
  case false =>
    have hz := tally_of_not_hasData (m := m) hh hd
    simp only [arrived, kept, made, Bool.false_eq_true, if_false, hl, h, Flusher.held]
    omega
  case true =>
    have hq := send_queue s.channel .flusher x.1
    cases hs : (s.channel.send .flusher x.1).1
    all_goals
      rw [hs] at hq
      simp only [arrived, kept, made, if_true, hl, h, hq, Flusher.held]
      simp
      omega

theorem drainFinal_balance (c : s.Accounted driver) (h : s.main = .joined) :
    (s.drainFinal driver).arrived m + (s.drainFinal driver).kept m + s.made m =
      s.arrived m + s.kept m + (s.drainFinal driver).made m := by
  have hn : (if driver = .openLoop then s.dropped else 0) = s.dropped := by
    split
    case isTrue => rfl
    case isFalse hd => exact (c.dropped hd).symm
  have ht := s.agg.tally_drainFinal driver s.dropped (m := m)
  have hl := s.agg.loopCap_drainFinal driver s.dropped
  have hd : (s.agg.drainFinal driver s.dropped).1.dropped = s.dropped := rfl
  simp only [drainFinal, hn]
  generalize s.agg.drainFinal driver s.dropped = x at ht hl hd
  cases Decidable.em (driver = .openLoop ∨ x.1.hasData)
  case inr hh =>
    have hdr : x.1.dropped = 0 := hd.trans (c.dropped fun he => hh (.inl he))
    have hz := tally_of_not_hasData (m := m) (by simpa using fun hf => hh (.inr hf)) hdr
    simp only [if_neg hh, arrived, kept, made, hl, h, MainTask.held, MainTask.drops,
      MainTask.isOpen, if_true]
    simp
    omega
  case inl hh =>
    have hq := send_queue s.channel .main x.1
    cases hs : (s.channel.send .main x.1).1
    all_goals
      rw [hs] at hq
      simp only [if_pos hh, arrived, kept, made, if_true, hl, h, hq, MainTask.held,
        MainTask.drops, MainTask.isOpen]
      simp
      omega

theorem step_balance (c : s.Accounted driver) :
    (s.step driver e).arrived m + (s.step driver e).kept m + s.lost e m + s.made m =
      s.arrived m + s.kept m + (s.step driver e).made m := by
  cases e
  case record r =>
    simp only [step]
    split_ifs
    case neg => simp [lost, Stops]
    case pos h =>
      have ht := Aggregator.tally_apply (r := r) (m := m) c.keyed
      simp [arrived, kept, made, lost, Stops, h, ht, Aggregator.loopCap_apply]
      omega
  case drop =>
    simp only [step]
    split_ifs
    case neg => simp [lost, Stops]
    case pos h =>
      simp [arrived, kept, made, lost, Stops, MainTask.drops, MainTask.isOpen, h, Metric.one_add]
      omega
  case tick now =>
    simp only [step]
    split_ifs
    case neg => simp [lost, Stops]
    case pos h =>
      have hb := tick_balance driver now h (m := m)
      simp only [lost, Stops]
      simp
      omega
  case drainFinal =>
    simp only [step]
    split_ifs
    case neg => simp [lost, Stops]
    case pos h =>
      have hb := drainFinal_balance (m := m) c h
      simp only [lost, Stops]
      simp
      omega
  case pollFlusher =>
    simp only [step]
    split
    case h_2 => simp [lost, Stops]
    case h_1 f hf =>
      have hq := poll_queue s.channel .flusher f
      cases hs : (s.channel.poll .flusher f).1
      case false =>
        rw [hs] at hq
        simp [arrived, kept, made, lost, Stops, hq, hf, Flusher.held]
      case true =>
        rw [hs] at hq
        simp [arrived, kept, made, lost, Stops, hq, hf, Flusher.held]
        omega
  case pollMain =>
    simp only [step]
    split
    case h_2 => simp [lost, Stops]
    case h_1 f hf =>
      have hq := poll_queue s.channel .main f
      cases hs : (s.channel.poll .main f).1
      case false =>
        rw [hs] at hq
        simp [arrived, kept, made, lost, Stops, hq, hf, MainTask.held, MainTask.drops,
          MainTask.isOpen]
      case true =>
        rw [hs] at hq
        simp [arrived, kept, made, lost, Stops, hq, hf, MainTask.held, MainTask.drops,
          MainTask.isOpen]
        omega
  case flusherStopped =>
    simp only [step]
    split_ifs
    case neg h => simp [lost, Stops, h]
    case pos h =>
      simp [arrived, kept, made, lost, Stops, h, Flusher.held, MainTask.held, MainTask.drops,
        MainTask.isOpen]
      omega
  case receive =>
    simp only [step]
    split
    case h_1 => simp [lost, Stops]
    case h_2 f channel hr =>
      have hq : s.channel.queue = f :: channel.queue := by
        simp only [FlushChannel.recv] at hr
        split at hr
        case h_1 => cases hr
        case h_2 hq =>
          cases hr
          simpa using hq
      simp [arrived, kept, made, lost, Stops, hq]
  case cancel => simp [step, arrived, kept, made, lost, Stops]
  case spawnVu =>
    simp only [step]
    split_ifs <;> simp [arrived, kept, made, lost, Stops]
  case failVu =>
    simp only [step]
    split_ifs <;> simp [arrived, kept, made, lost, Stops]
  case startFlusher =>
    simp only [step]
    split_ifs
    case neg => simp [lost, Stops]
    case pos h => simp [arrived, kept, made, lost, Stops, h, Flusher.held]
  case join =>
    simp only [step]
    split_ifs
    case neg => simp [lost, Stops]
    case pos h =>
      simp [arrived, kept, made, lost, Stops, h, MainTask.held, MainTask.drops, MainTask.isOpen]
  case abortFlusher =>
    simp only [step]
    split_ifs
    case neg => simp [lost, Stops]
    case pos h =>
      simp [arrived, kept, made, lost, Stops, h, MainTask.held, MainTask.drops, MainTask.isOpen]

namespace Accounted

theorem new : (new driver cap capacity).Accounted driver where
  keyed   := Aggregator.keyed_new
  dropped := fun _ => rfl
  drained := fun h => by simp [Flushing.new, MainTask.isOpen] at h
  stopped := fun _ h => by simp [Flushing.new] at h

theorem tick (c : s.Accounted driver) (h : s.flusher = .idle) :
    (s.tick driver now).Accounted driver := by
  have ht m := s.agg.tally_drainTick driver now (m := m)
  have hk := Aggregator.keyed_drainTick driver now c.keyed
  simp only [Flushing.tick]
  generalize s.agg.drainTick driver now = x at ht hk
  have hd : s.main.isOpen = false → ∀ m, x.2.tally m = 0 := fun ho m => by
    have hz := c.drained ho m
    have ht := ht m
    omega
  have hs : ∀ o, s.main ≠ .returned o := fun o ho => by
    simpa [h] using c.stopped o ho
  split_ifs
  all_goals exact ⟨hk, c.dropped, hd, fun o ho => (hs o ho).elim⟩

theorem drainFinal (c : s.Accounted driver) : (s.drainFinal driver).Accounted driver := by
  have hk := s.agg.keyed_drainFinal driver
    (if driver = .openLoop then s.dropped else 0)
  have hz m := s.agg.tally_drainFinal_eq_zero driver
    (if driver = .openLoop then s.dropped else 0) (m := m)
  unfold Flushing.drainFinal
  generalize s.agg.drainFinal driver (if driver = .openLoop then s.dropped else 0) = x at hk hz ⊢
  simp only
  split_ifs
  all_goals exact ⟨hk, c.dropped, fun _ => hz, by simp⟩

theorem step (c : s.Accounted driver) : (s.step driver e).Accounted driver := by
  cases e
  case record r =>
    simp only [Flushing.step]
    split_ifs
    case neg => exact c
    case pos h =>
      refine ⟨Aggregator.keyed_apply c.keyed, c.dropped, fun ho => ?_, c.stopped⟩
      simp [h, MainTask.isOpen] at ho
  case drop =>
    simp only [Flushing.step]
    split_ifs
    case neg => exact c
    case pos h => exact ⟨c.keyed, fun hd => (hd h.right).elim, c.drained, c.stopped⟩
  case tick now =>
    simp only [Flushing.step]
    split_ifs
    case neg => exact c
    case pos h => exact c.tick h
  case drainFinal =>
    simp only [Flushing.step]
    split_ifs
    case neg => exact c
    case pos h => exact c.drainFinal
  case pollFlusher =>
    simp only [Flushing.step]
    split
    case h_2 => exact c
    case h_1 f hf =>
      refine ⟨c.keyed, c.dropped, c.drained, fun o ho => ?_⟩
      simpa [hf] using c.stopped o ho
  case pollMain =>
    simp only [Flushing.step]
    split
    case h_2 => exact c
    case h_1 f hf =>
      have hd := c.drained (by rw [hf]; rfl)
      split_ifs <;> exact ⟨c.keyed, c.dropped, fun _ => hd, by simp⟩
  case startFlusher =>
    simp only [Flushing.step]
    split_ifs
    case neg => exact c
    case pos h =>
      refine ⟨c.keyed, c.dropped, c.drained, fun o ho => ?_⟩
      simpa [h] using c.stopped o ho
  case join =>
    simp only [Flushing.step]
    split_ifs
    case neg => exact c
    case pos => exact ⟨c.keyed, c.dropped, by simp [MainTask.isOpen], by simp⟩
  case abortFlusher =>
    simp only [Flushing.step]
    split_ifs
    case neg => exact c
    case pos h => exact ⟨c.keyed, c.dropped, fun _ => c.drained (by rw [h]; rfl), by simp⟩
  case flusherStopped =>
    simp only [Flushing.step]
    split_ifs
    case neg => exact c
    case pos h => exact ⟨c.keyed, c.dropped, fun _ => c.drained (by rw [h]; rfl), fun _ _ => rfl⟩
  case cancel => exact ⟨c.keyed, c.dropped, c.drained, c.stopped⟩
  case spawnVu =>
    simp only [Flushing.step]
    split_ifs
    case neg => exact c
    case pos => exact ⟨c.keyed, c.dropped, c.drained, c.stopped⟩
  case failVu =>
    simp only [Flushing.step]
    split_ifs
    case neg => exact c
    case pos => exact ⟨c.keyed, c.dropped, c.drained, c.stopped⟩
  case receive =>
    simp only [Flushing.step]
    split
    case h_1 => exact c
    case h_2 => exact ⟨c.keyed, c.dropped, c.drained, c.stopped⟩

end Accounted

theorem tick_loopCap : (s.tick driver now).agg.loopCap = s.agg.loopCap := by
  have hl := s.agg.loopCap_drainTick driver now
  simp only [tick]
  split_ifs <;> exact hl

theorem drainFinal_loopCap : (s.drainFinal driver).agg.loopCap = s.agg.loopCap := by
  have hl := s.agg.loopCap_drainFinal driver
    (if driver = .openLoop then s.dropped else 0)
  unfold drainFinal
  generalize s.agg.drainFinal driver (if driver = .openLoop then s.dropped else 0) = x at hl ⊢
  simp only
  split_ifs <;> exact hl

theorem step_loopCap : (s.step driver e).agg.loopCap = s.agg.loopCap := by
  cases e
  case record r =>
    simp only [step]
    split_ifs
    case pos => exact Aggregator.loopCap_apply
    case neg => rfl
  case tick now =>
    simp only [step]
    split_ifs
    case pos => exact tick_loopCap
    case neg => rfl
  case drainFinal =>
    simp only [step]
    split_ifs
    case pos => exact drainFinal_loopCap
    case neg => rfl
  all_goals
    simp only [step]
    try split_ifs
    all_goals try split
    all_goals rfl

-- When the flusher is stopped, it holds no counts.
def StopsEmpty (s : Flushing) (e : FlushEvent) : Prop :=
  s.Stops e → ∀ m, s.flusher.held m = 0

theorem stopsEmpty_iff : s.StopsEmpty e ↔ ∀ m, s.lost e m = 0 := by
  unfold StopsEmpty lost
  split_ifs
  case pos h => simp [h]
  case neg h => simp [h]

theorem new_balance :
    (new driver cap capacity).arrived m + (new driver cap capacity).kept m =
      (new driver cap capacity).made m := by
  have hf : (new driver cap capacity).flusher.held m = 0 := by
    simp only [new]
    split_ifs <;> rfl
  simp only [kept, hf]
  simp [new, arrived, made, MainTask.held, MainTask.drops, MainTask.isOpen]

-- As long as the flusher is stopped with nothing in its hands, all that was made is on its way, and
-- what it holds when it is stopped is missing from then on.
theorem run_balance (driver : Driver) (cap capacity : ℕ) (events : List FlushEvent) :
    let s := run driver cap capacity events
    s.Accounted driver ∧ s.agg.loopCap = cap ∧ (∀ m, s.arrived m + s.kept m ≤ s.made m) ∧
    ((∀ m, s.arrived m + s.kept m = s.made m) ↔
      Trace.Meets (step driver) StopsEmpty (new driver cap capacity) events) := by
  induction events using List.reverseRecOn
  case nil =>
    exact ⟨.new, rfl, fun _ => new_balance.le, iff_of_true (fun _ => new_balance) Trace.meets_nil⟩
  case append_singleton events e ih =>
    have hrun : run driver cap capacity (events ++ [e]) =
      (run driver cap capacity events).step driver e := Trace.run_concat
    have hmeets : Trace.Meets (step driver) StopsEmpty (new driver cap capacity) (events ++ [e]) ↔
      Trace.Meets (step driver) StopsEmpty (new driver cap capacity) events ∧
        (run driver cap capacity events).StopsEmpty e := Trace.meets_concat
    simp only at ih ⊢
    rw [hrun, hmeets]
    generalize run driver cap capacity events = s at ih
    have ⟨c, hl, hle, hiff⟩ := ih
    have hb m := step_balance (m := m) (e := e) c
    rw [← hiff, stopsEmpty_iff]
    refine ⟨c.step, step_loopCap.trans hl, fun m => ?_, fun h => ⟨fun m => ?_, fun m => ?_⟩,
      fun ⟨h, hz⟩ m => ?_⟩
    · have := hb m
      have := hle m
      omega
    · have := hb m
      have := hle m
      have := h m
      omega
    · have := hb m
      have := hle m
      have := h m
      omega
    · have := hb m
      have := h m
      have := hz m
      omega

-- When a driver returns, all that was recorded has been sent if and only if the flusher was not
-- holding a drained batch when it was stopped.
theorem flush_conserves (driver : Driver) (loopBreakdownCap capacity : ℕ)
    (events : List FlushEvent) :
    let s := run driver loopBreakdownCap capacity events
    ∀ outcome, s.main = .returned outcome →
      ((∀ m, ((s.delivered ++ s.channel.queue).map (·.tally m)).sum =
        (s.recorded.map (·.tally loopBreakdownCap m)).sum + Metric.one s.dropped .dropped m) ↔
      Trace.Meets (step driver) StopsEmpty (new driver loopBreakdownCap capacity) events) := by
  intro s outcome ho
  have ⟨c, hl, _, hiff⟩ := run_balance driver loopBreakdownCap capacity events
  rw [← hiff]
  refine forall_congr' fun m => ?_
  have hk : s.kept m = 0 := by
    have hz := c.drained (by rw [ho]; rfl) m
    have hf := c.stopped outcome ho
    simp only [kept]
    rw [hf, ho, hz]
    rfl
  have hm : s.made m = (s.recorded.map (·.tally loopBreakdownCap m)).sum +
      Metric.one s.dropped .dropped m := by
    rw [made, hl]
  change s.arrived m = _ ↔ s.arrived m + s.kept m = s.made m
  rw [hk, hm, Nat.add_zero]

theorem flush_conserves_drop :
    let s := run .openLoop 0 1 [.drop, .join, .drainFinal, .abortFlusher, .flusherStopped]
    s.main = .returned .ok ∧
    ∀ m, ((s.delivered ++ s.channel.queue).map (·.tally m)).sum =
      (s.recorded.map (·.tally 0 m)).sum + Metric.one s.dropped .dropped m := by
  have h := flush_conserves .openLoop 0 1
    [.drop, .join, .drainFinal, .abortFlusher, .flusherStopped] .ok (by decide)
  refine ⟨by decide, h.mpr ?_⟩
  simp only [Trace.meets_cons]
  have hs (s : Flushing) {e} (he : e ≠ .flusherStopped) : s.StopsEmpty e := fun h => (he h.1).elim
  exact ⟨hs _ (by simp), hs _ (by simp), hs _ (by simp), hs _ (by simp), fun _ _ => rfl,
    Trace.meets_nil⟩

-- A channel with room for one batch is full when the flusher sends the second one. The VUs end,
-- there is nothing left to drain, and the driver stops the flusher while it is waiting.
theorem flush_conserves_counterexample :
    let record := FlushEvent.record (.branch "if" "then")
    let s := run .closedLoop 0 1
      [.spawnVu, .startFlusher, record, .tick 0, record, .tick 1, .join, .drainFinal, .abortFlusher,
        .flusherStopped, .receive]
    s.main = .returned .ok ∧
    (s.recorded.map (·.tally 0 (.branch "if" "then"))).sum = 2 ∧
    ((s.delivered ++ s.channel.queue).map (·.tally (.branch "if" "then"))).sum = 1 := by
  decide

end Flushing

end Engine
