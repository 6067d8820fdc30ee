import Handicap.Engine.Collecting
import Handicap.Engine.Theorems.Flush

namespace Engine

-- The sample of a second that was recorded last.
def lastSample (second : ℤ) : List Record → Option (ℕ × ℕ) :=
  List.foldl (fun last r =>
    match r with
    | .activeVu ts desired actual => if ts = second then some (desired, actual) else last
    | _                           => last) none

-- What a request adds to the loop counts of a step, whatever its index is.
def Record.loopHit (cap : ℕ) (stepId : String) : Record → ℕ
  | .request _ step _ _ _ (some _) => if 0 < cap ∧ step = stepId then 1 else 0
  | _                              => 0

def loopTotal (stepId : String) (l : List LoopStat) : ℕ :=
  (l.map fun e => if e.stepId = stepId then e.count else 0).sum

-- The windows that have been drained and those that are kept. A window that was drained is of a
-- second that is over, unless it was drained by drain_all.
structure WindowsOnce (emitted : List StepWindow) (held : Table (String × ℤ) StepWindow)
    (final : List (String × ℤ)) (clock : ℤ) : Prop where
  nodup : (emitted.map windowKey ++ held.keys).Nodup
  keyed : ∀ k w, held.lookup k = some w → windowKey w = k
  held  : ∀ k ∈ held.keys, k.2 ≤ clock
  past  : ∀ w ∈ emitted, w.tsSecond < clock ∨ windowKey w ∈ final

namespace WindowsOnce

variable {emitted drained : List StepWindow} {held u : Table (String × ℤ) StepWindow}
  {final : List (String × ℤ)} {clock now : ℤ} {k : String × ℤ} {d : StepWindow}
  {g : StepWindow → StepWindow}

theorem wait (o : WindowsOnce emitted held final clock) (h : clock ≤ now) :
    WindowsOnce emitted held final now where
  nodup := o.nodup
  keyed := o.keyed
  held  := fun k hk => (o.held k hk).trans h
  past  := fun w hw => (o.past w hw).imp_left fun hp => hp.trans_le h

-- A request is recorded in the second of the clock.
theorem record (o : WindowsOnce emitted held final clock) (hk : k.2 = clock) (hf : k ∉ final)
    (hd : windowKey d = k) (hg : ∀ w, windowKey (g w) = windowKey w) :
    WindowsOnce emitted (held.update k d g) final clock where
  nodup := by
    have hn : k ∉ emitted.map windowKey := by
      intro hm
      have ⟨w, hw, he⟩ := List.mem_map.mp hm
      cases o.past w hw
      case inl hp =>
        have ht : w.tsSecond = k.2 := congrArg Prod.snd he
        exact absurd (ht.trans hk) (ne_of_lt hp)
      case inr hp => exact hf (he ▸ hp)
    have ⟨he, hh, hd⟩ := List.nodup_append.mp o.nodup
    refine List.nodup_append.mpr ⟨he, AList.keys_nodup _, fun x hx y hy hxy => ?_⟩
    cases Table.mem_keys_update.mp hy
    case inl hy => exact hn ((hxy.trans hy) ▸ hx)
    case inr hy => exact hd x hx y hy hxy
  keyed := by
    intro k' w hw
    cases Decidable.em (k' = k)
    case inl he =>
      subst he
      rw [Table.update, AList.lookup_insert] at hw
      cases hw
      rw [hg]
      cases hl : held.lookup k'
      case none => exact hd
      case some w => exact o.keyed k' w hl
    case inr he =>
      rw [Table.update, AList.lookup_insert_ne he] at hw
      exact o.keyed k' w hw
  held  := by
    intro k' hm
    cases Table.mem_keys_update.mp hm
    case inl he => exact le_of_eq (he ▸ hk)
    case inr hm => exact o.held k' hm
  past  := o.past

-- What is drained is no longer kept.
theorem drain (o : WindowsOnce emitted held final clock) {l : List ((String × ℤ) × StepWindow)}
    (hl : ∀ k w, (k, w) ∈ l → held.lookup k = some w) (hr : ∀ k w, u.lookup k = some w →
      held.lookup k = some w) (hp : (l.map Prod.fst ++ u.keys).Perm held.keys)
    (final' : List (String × ℤ))
    (hf : ∀ k w, (k, w) ∈ l → w.tsSecond < clock ∨ windowKey w ∈ final') :
    WindowsOnce (emitted ++ l.map Prod.snd) u (final ++ final') clock where
  nodup := by
    have hk : (l.map Prod.snd).map windowKey = l.map Prod.fst := by
      rw [List.map_map]
      exact List.map_congr_left fun e he => o.keyed e.1 e.2 (hl e.1 e.2 he)
    rw [List.map_append, hk, List.append_assoc]
    exact ((List.Perm.append_left _ hp).nodup_iff).mpr o.nodup
  keyed := fun k w hw => o.keyed k w (hr k w hw)
  held  := fun k hk => o.held k (hp.subset (List.mem_append_right _ hk))
  past  := by
    intro w hw
    cases List.mem_append.mp hw
    case inl hw => exact (o.past w hw).imp_right (List.mem_append_left _)
    case inr hw =>
      have ⟨e, he, hs⟩ := List.mem_map.mp hw
      subst hs
      exact (hf e.1 e.2 he).imp_right (List.mem_append_right _)

end WindowsOnce

-- The seconds of the gauge that have been drained and those that are kept.
structure GaugeOnce (emitted : List ActiveVuSample) (held : Table ℤ (ℕ × ℕ))
    (recorded : List Record) : Prop where
  nodup    : (emitted.map (·.tsSecond) ++ held.keys).Nodup
  last     : ∀ e ∈ emitted, lastSample e.tsSecond recorded = some (e.desired, e.actual)
  lastHeld : ∀ t v, held.lookup t = some v → lastSample t recorded = some v

namespace GaugeOnce

variable {emitted : List ActiveVuSample} {held u : Table ℤ (ℕ × ℕ)} {recorded : List Record}
  {r : Record} {ts : ℤ} {desired actual : ℕ}

theorem lastSample_sample : lastSample ts (recorded ++ [.activeVu ts desired actual]) =
    some (desired, actual) := by
  rw [lastSample, List.foldl_concat]
  exact if_pos rfl

theorem lastSample_of_ne {t : ℤ} (h : ∀ desired actual, r ≠ .activeVu t desired actual) :
    lastSample t (recorded ++ [r]) = lastSample t recorded := by
  rw [lastSample, List.foldl_concat]
  cases r
  case activeVu ts desired actual =>
    exact if_neg fun (he : ts = t) => h desired actual (he ▸ rfl)
  all_goals rfl

theorem other (o : GaugeOnce emitted held recorded)
    (h : ∀ t desired actual, r ≠ .activeVu t desired actual) :
    GaugeOnce emitted held (recorded ++ [r]) where
  nodup    := o.nodup
  last     := fun e he => (lastSample_of_ne (h _)).trans (o.last e he)
  lastHeld := fun t v hv => (lastSample_of_ne (h _)).trans (o.lastHeld t v hv)

theorem record (o : GaugeOnce emitted held recorded) (hn : ts ∉ emitted.map (·.tsSecond)) :
    GaugeOnce emitted (held.insert ts (desired, actual))
      (recorded ++ [.activeVu ts desired actual]) where
  nodup    := by
    have ⟨he, hh, hd⟩ := List.nodup_append.mp o.nodup
    refine List.nodup_append.mpr ⟨he, AList.keys_nodup _, fun x hx y hy hxy => ?_⟩
    cases (AList.mem_insert held).mp hy
    case inl hy => exact hn ((hxy.trans hy) ▸ hx)
    case inr hy => exact hd x hx y hy hxy
  last     := by
    intro e he
    have hne : e.tsSecond ≠ ts := fun h => hn (h ▸ List.mem_map_of_mem he)
    rw [lastSample_of_ne fun _ _ h => hne (by cases h; rfl)]
    exact o.last e he
  lastHeld := by
    intro t v hv
    cases Decidable.em (t = ts)
    case inl he =>
      subst he
      rw [AList.lookup_insert] at hv
      exact lastSample_sample.trans hv
    case inr he =>
      rw [AList.lookup_insert_ne he] at hv
      rw [lastSample_of_ne fun _ _ h => he (by cases h; rfl)]
      exact o.lastHeld t v hv

theorem drain (o : GaugeOnce emitted held recorded) {l : List (ℤ × ℕ × ℕ)}
    (hl : ∀ k v, (k, v) ∈ l → held.lookup k = some v)
    (hr : ∀ k v, u.lookup k = some v → held.lookup k = some v)
    (hp : (l.map Prod.fst ++ u.keys).Perm held.keys) :
    GaugeOnce (emitted ++ l.map Aggregator.activeVuSample) u recorded where
  nodup    := by
    have hk : (l.map Aggregator.activeVuSample).map (·.tsSecond) = l.map Prod.fst := by
      rw [List.map_map]
      rfl
    rw [List.map_append, hk, List.append_assoc]
    exact ((List.Perm.append_left _ hp).nodup_iff).mpr o.nodup
  last     := by
    intro e he
    cases List.mem_append.mp he
    case inl he => exact o.last e he
    case inr he =>
      have ⟨x, hx, hs⟩ := List.mem_map.mp he
      subst hs
      exact o.lastHeld x.1 x.2 (hl x.1 x.2 hx)
  lastHeld := fun t v hv => o.lastHeld t v (hr t v hv)

end GaugeOnce

-- The counts of the loops: an index from the cap on is counted in the bucket of all of them.
structure LoopsKept (cap : ℕ) (loops : List LoopStat) (recorded : List Record) : Prop where
  total   : ∀ stepId, loopTotal stepId loops = (recorded.map (·.loopHit cap stepId)).sum
  buckets : ∀ l ∈ loops, l.loopIndex < cap ∨ l.loopIndex = loopOverflow

namespace LoopsKept

variable {a : Aggregator} {l : List LoopStat} {recorded : List Record} {r : Record} {stepId : String}

def loopCount (stepId : String) (k : String × ℕ) (c : LoopCount) : ℕ :=
  if k.1 = stepId then c.count else 0

theorem loopTotal_drain : loopTotal stepId (l ++ a.drainLoopDeltas.1) =
    loopTotal stepId l + a.loopCounts.sum (loopCount stepId) := by
  simp only [loopTotal, Aggregator.drainLoopDeltas, Table.sum_toList, List.map_append,
    List.sum_append, List.map_map]
  rfl

-- A request counts in one bucket, and every other one is left as it is.
theorem sum_apply : (a.apply r).loopCounts.sum (loopCount stepId) =
    a.loopCounts.sum (loopCount stepId) +
      r.loopHit a.loopCap stepId := by
  cases r
  case request ts step latencyUs status isError loopIndex =>
    cases loopIndex
    case none => rfl
    case some index =>
      cases Decidable.em (0 < a.loopCap)
      case inl hc =>
        simp only [Aggregator.apply, Aggregator.record, Record.loopHit, hc, true_and, if_true]
        refine Table.sum_update (f := loopCount stepId) (ite_self 0) fun b _ => ?_
        cases Decidable.em (step = stepId)
        case inl hs => simp [loopCount, hs]
        case inr hs => simp [loopCount, hs]
      case inr hc => simp [Aggregator.apply, Aggregator.record, Record.loopHit, hc]
  all_goals rfl

theorem mem_apply {k : String × ℕ} (h : k ∈ (a.apply r).loopCounts.keys) :
    k ∈ a.loopCounts.keys ∨ k.2 < a.loopCap ∨ k.2 = loopOverflow := by
  cases r
  case request ts step latencyUs status isError loopIndex =>
    cases loopIndex
    case none => exact .inl h
    case some index =>
      simp only [Aggregator.apply, Aggregator.record] at h
      cases Decidable.em (0 < a.loopCap)
      case inr hc => exact .inl (by simpa [hc] using h)
      case inl hc =>
        rw [if_pos hc] at h
        cases Table.mem_keys_update.mp h
        case inr h => exact .inl h
        case inl h =>
          refine .inr (h ▸ ?_)
          simp only [Aggregator.loopBucket]
          split_ifs
          case pos hi => exact .inl hi
          case neg => exact .inr rfl
  all_goals exact .inl h

theorem mem_drain {e : LoopStat} :
    e ∈ a.drainLoopDeltas.1 → (e.stepId, e.loopIndex) ∈ a.loopCounts.keys := by
  intro h
  have ⟨x, hx, he⟩ := List.mem_map.mp h
  subst he
  rw [← Table.keys_toList]
  exact List.mem_map_of_mem hx

theorem exists_drain {k : String × ℕ} (h : k ∈ a.loopCounts.keys) :
    ∃ e ∈ a.drainLoopDeltas.1, e.loopIndex = k.2 := by
  rw [← Table.keys_toList] at h
  have ⟨x, hx, he⟩ := List.mem_map.mp h
  exact ⟨_, List.mem_map_of_mem hx, congrArg Prod.snd he⟩

theorem record (o : LoopsKept a.loopCap (l ++ a.drainLoopDeltas.1) recorded) :
    LoopsKept a.loopCap (l ++ (a.apply r).drainLoopDeltas.1) (recorded ++ [r]) where
  total   := by
    intro stepId
    have ht := o.total stepId
    rw [loopTotal_drain] at ht ⊢
    rw [sum_apply, ← Nat.add_assoc, ht, List.map_append, List.sum_append, List.map_singleton,
      List.sum_singleton]
  buckets := by
    intro e he
    cases List.mem_append.mp he
    case inl he => exact o.buckets e (List.mem_append_left _ he)
    case inr he =>
      cases mem_apply (mem_drain he)
      case inr hb => exact hb
      case inl hk =>
        have ⟨e', hm, hi⟩ := exists_drain hk
        have hb := o.buckets e' (List.mem_append_right _ hm)
        rwa [hi] at hb

end LoopsKept

namespace Collecting

variable {s : Collecting} {c : AggregatorCall} {now : ℤ} {cap : ℕ} {m : Metric} {stepId : String}
  {r : Record}

-- The loop counts that have not been drained yet.
def heldLoops (s : Collecting) : List LoopStat :=
  s.agg.drainLoopDeltas.1

-- Every window has been drained at most once, and no other one with its step and second is kept.
-- Everything that was recorded has been drained or is kept, and so are the counts of all loops.
-- Every second of the gauge has been drained at most once, with its last sample.
structure Once (cap : ℕ) (s : Collecting) : Prop where
  windows   : (s.emitted.windows.map windowKey ++ s.agg.windows.keys).Nodup
  conserved : ∀ m, s.emitted.tally m + s.agg.tally m = (s.recorded.map (·.tally cap m)).sum
  loops     : LoopsKept cap (s.emitted.loopStats ++ s.heldLoops) s.recorded
  gauge     : (s.emitted.activeVuSamples.map (·.tsSecond) ++ s.agg.activeVu.keys).Nodup
  last      : ∀ e ∈ s.emitted.activeVuSamples,
    lastSample e.tsSecond s.recorded = some (e.desired, e.actual)

-- The window that a call records a request in.
def windowOf (c : TimedCall) : Option (String × ℤ) :=
  match c.call with
  | .record (.request _ stepId _ _ _ _) => some (stepId, c.second)
  | _                                   => none

-- The second that a call records a sample for.
def sampledSecond (c : TimedCall) : Option ℤ :=
  match c.call with
  | .record (.activeVu ts _ _) => some ts
  | _                          => none

-- No request is recorded for a window that drain_all has drained, and no sample for a second that
-- has been drained.
def Timely (s : Collecting) (c : TimedCall) : Prop :=
  (∀ k ∈ windowOf c, k ∉ s.final) ∧
  ∀ t ∈ sampledSecond c, t ∉ s.emitted.activeVuSamples.map (·.tsSecond)

instance {c : TimedCall} : Decidable (s.Timely c) :=
  inferInstanceAs (Decidable (_ ∧ _))

structure Invariant (cap : ℕ) (s : Collecting) : Prop where
  windows   : WindowsOnce s.emitted.windows s.agg.windows s.final s.clock
  gauge     : GaugeOnce s.emitted.activeVuSamples s.agg.activeVu s.recorded
  loops     : LoopsKept cap (s.emitted.loopStats ++ s.heldLoops) s.recorded
  conserved : ∀ m, s.emitted.tally m + s.agg.tally m = (s.recorded.map (·.tally cap m)).sum
  loopCap   : s.agg.loopCap = cap

theorem Invariant.once (i : s.Invariant cap) : s.Once cap where
  windows   := i.windows.nodup
  conserved := i.conserved
  loops     := i.loops
  gauge     := i.gauge.nodup
  last      := i.gauge.last

theorem Invariant.keyed (i : s.Invariant cap) : s.agg.Keyed :=
  i.windows.keyed

theorem tally_emitWindows {d : List StepWindow × Aggregator}
    (h : (d.1.map (·.tally m)).sum + d.2.tally m = s.agg.tally m) :
    (s.emitWindows d).emitted.tally m + (s.emitWindows d).agg.tally m =
      s.emitted.tally m + s.agg.tally m := by
  simp only [emitWindows, MetricFlush.tally, List.map_append, List.sum_append, ← h]
  ring

-- Drains move what they return, and only records add something.
theorem exec_tally (i : s.Invariant cap) :
    (s.exec now c).emitted.tally m + (s.exec now c).agg.tally m =
      s.emitted.tally m + s.agg.tally m +
        match c with
        | .record r => (r.stamp now).tally cap m
        | _         => 0 := by
  cases c
  case record r =>
    rw [← i.loopCap]
    simp only [exec, Aggregator.tally_apply i.keyed]
    ring
  case drainCompleted => exact tally_emitWindows (Aggregator.tally_drainCompleted _)
  case drainAll => exact tally_emitWindows Aggregator.tally_drainAll
  case drainLoopDeltas =>
    simp only [exec, MetricFlush.tally, List.map_append, List.sum_append,
      ← Aggregator.tally_drainLoopDeltas (a := s.agg)]
    ring
  case drainBranchDeltas =>
    simp only [exec, MetricFlush.tally, List.map_append, List.sum_append,
      ← Aggregator.tally_drainBranchDeltas (a := s.agg)]
    ring
  case drainErrorKindDeltas =>
    simp only [exec, MetricFlush.tally, List.map_append, List.sum_append,
      ← Aggregator.tally_drainErrorKindDeltas (a := s.agg)]
    ring
  case drainGroupDeltas =>
    simp only [exec, MetricFlush.tally, List.map_append, List.sum_append,
      ← Aggregator.tally_drainGroupDeltas (a := s.agg)]
    ring
  case drainPhaseDeltas =>
    simp only [exec, MetricFlush.tally, List.map_append, List.sum_append,
      ← Aggregator.tally_drainPhaseDeltas (a := s.agg)]
    ring
  case drainActiveVuCompleted => rfl
  case drainActiveVu => rfl

theorem exec_conserved (i : s.Invariant cap) :
    (s.exec now c).emitted.tally m + (s.exec now c).agg.tally m =
      ((s.exec now c).recorded.map (·.tally cap m)).sum := by
  rw [exec_tally i, i.conserved]
  cases c
  case record r => simp [exec]
  all_goals rfl

theorem exec_loopCap : (s.exec now c).agg.loopCap = s.agg.loopCap := by
  cases c
  case record r => exact Aggregator.loopCap_apply
  all_goals rfl

-- The clock has gone to the second in which the lock is held.
theorem exec_windows (o : WindowsOnce s.emitted.windows s.agg.windows s.final now)
    (hb : c.readBefore.all (· ≤ now)) (ht : s.Timely ⟨now, c⟩) :
    WindowsOnce (s.exec now c).emitted.windows (s.exec now c).agg.windows (s.exec now c).final
      now := by
  cases c
  case record r =>
    cases r
    case request ts stepId latencyUs status isError loopIndex =>
      exact o.record (k := (stepId, now)) (d := .new stepId now)
        (g := (·.record latencyUs status isError)) rfl (ht.left _ rfl) rfl fun _ => rfl
    all_goals exact o
  case drainCompleted upToSecond =>
    have hu : upToSecond ≤ now := by simpa [AggregatorCall.readBefore] using hb
    have hd := o.drain (l := (s.agg.windows.extract (·.2 < upToSecond)).1)
      (fun _ _ h => (Table.lookup_of_mem_extract h).left) (fun _ _ => Table.lookup_of_extract)
      Table.keys_extract [] fun k w h => by
        have ⟨hl, hk⟩ := Table.lookup_of_mem_extract h
        have hs : w.tsSecond = k.2 := congrArg Prod.snd (o.keyed k w hl)
        exact .inl (hs ▸ (of_decide_eq_true hk).trans_le hu)
    rwa [List.append_nil] at hd
  case drainAll =>
    exact o.drain (u := ∅) (l := s.agg.windows.toList) (fun _ _ => Table.lookup_of_mem_toList)
      (fun _ _ h => by cases h) (by rw [Table.keys_toList]; simp) _ fun k w h =>
        .inr (List.mem_map_of_mem (List.mem_map_of_mem (f := Prod.snd) h))
  all_goals exact o

theorem exec_gauge (o : GaugeOnce s.emitted.activeVuSamples s.agg.activeVu s.recorded)
    (ht : s.Timely ⟨now, c⟩) :
    GaugeOnce (s.exec now c).emitted.activeVuSamples (s.exec now c).agg.activeVu
      (s.exec now c).recorded := by
  cases c
  case record r =>
    cases r
    case activeVu => exact o.record (ht.right _ rfl)
    all_goals exact o.other (by simp [Record.stamp])
  case drainActiveVuCompleted upToSecond =>
    exact o.drain (l := (s.agg.activeVu.extract (· < upToSecond)).1)
      (u := (s.agg.activeVu.extract (· < upToSecond)).2)
      (fun _ _ h => (Table.lookup_of_mem_extract h).left) (fun _ _ => Table.lookup_of_extract)
      Table.keys_extract
  case drainActiveVu =>
    exact o.drain (u := ∅) (fun _ _ => Table.lookup_of_mem_toList) (fun _ _ h => by cases h)
      (by rw [Table.keys_toList]; simp)
  all_goals exact o

theorem exec_loops (o : LoopsKept s.agg.loopCap (s.emitted.loopStats ++ s.heldLoops) s.recorded) :
    LoopsKept s.agg.loopCap ((s.exec now c).emitted.loopStats ++ (s.exec now c).heldLoops)
      (s.exec now c).recorded := by
  cases c
  case record r => exact o.record
  case drainLoopDeltas =>
    have hh : (s.exec now .drainLoopDeltas).heldLoops = [] := rfl
    rw [hh, List.append_nil]
    exact o
  all_goals exact o

theorem Invariant.new {clock : ℤ} : (new cap clock).Invariant cap where
  windows   :=
    { nodup := List.nodup_nil
      keyed := Aggregator.keyed_new
      held  := by simp [Collecting.new, Aggregator.new]
      past  := by simp [Collecting.new] }
  gauge     :=
    { nodup    := List.nodup_nil
      last     := by simp [Collecting.new]
      lastHeld := by simp [Collecting.new, Aggregator.new] }
  loops     :=
    { total   := fun _ => rfl
      buckets := fun _ h => by cases h }
  conserved := fun _ => by simp [Collecting.new, MetricFlush.tally]
  loopCap   := rfl

theorem Invariant.step (i : s.Invariant cap) {c : TimedCall} (ht : s.Timely c) :
    (s.step c).Invariant cap := by
  unfold Collecting.step
  split_ifs
  case neg => exact i
  case pos h =>
    exact {
      windows   := exec_windows (i.windows.wait h.left) h.right ht
      gauge     := exec_gauge i.gauge ht
      loops     := i.loopCap ▸ exec_loops (i.loopCap ▸ i.loops)
      conserved := fun _ => exec_conserved i
      loopCap   := exec_loopCap.trans i.loopCap }

theorem run_once {clock : ℤ} {calls : List TimedCall}
    (h : Trace.Meets step Timely (new cap clock) calls) : (run cap clock calls).Once cap :=
  (h.invariant .new fun _ _ i ht => i.step ht : (run cap clock calls).Invariant cap).once

end Collecting

end Engine
