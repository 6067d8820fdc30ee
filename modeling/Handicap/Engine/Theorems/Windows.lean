import Handicap.Engine.Theorems.Collecting

-- The windows that the flusher and the driver of a run send: no two of them have the same step and
-- second.
namespace Engine

namespace WindowsOnce

variable {emitted emitted' : List StepWindow} {held : Table (String × ℤ) StepWindow}
  {final : List (String × ℤ)} {clock : ℤ}

-- Neither the order of the windows nor the loss of some of them matters.
theorem subperm (o : WindowsOnce emitted held final clock) (h : emitted'.Subperm emitted) :
    WindowsOnce emitted' held final clock where
  nodup := by
    obtain ⟨l, hp, hs⟩ := h
    have hn := o.nodup.sublist ((hs.map windowKey).append_right held.keys)
    exact (((hp.map windowKey).append_right _).nodup_iff).mp hn
  keyed := o.keyed
  held  := o.held
  past  := fun w hw => o.past w (h.subset hw)

end WindowsOnce

def Flusher.batches : Flusher → List MetricFlush
  | sending f => [f]
  | _         => []

def MainTask.batches : MainTask → List MetricFlush
  | sending f => [f]
  | _         => []

namespace Flushing

variable {driver : Driver} {s : Flushing} {e : FlushEvent} {clock now upToSecond : ℤ}
  {f : MetricFlush}

-- The windows that have been drained and not been lost.
def sentWindows (s : Flushing) : List StepWindow :=
  (s.delivered ++ s.channel.queue ++ s.flusher.batches ++ s.main.batches).flatMap (·.windows)

def SendsOnce (s : Flushing) (clock : ℤ) : Prop :=
  ∃ final, WindowsOnce s.sentWindows s.agg.windows final clock ∧ (s.main = .running → final = [])

namespace SendsOnce

theorem new {cap capacity : ℕ} : (new driver cap capacity).SendsOnce clock := by
  have hf : (Flushing.new driver cap capacity).sentWindows = [] := by
    simp only [sentWindows, Flushing.new]
    split_ifs <;> rfl
  refine ⟨[], ?_, fun _ => rfl⟩
  rw [hf]
  exact
    { nodup := List.nodup_nil
      keyed := Aggregator.keyed_new
      held  := by simp [Flushing.new, Aggregator.new]
      past  := by simp }

theorem wait (o : s.SendsOnce clock) (h : clock ≤ now) : s.SendsOnce now := by
  obtain ⟨final, ho, hf⟩ := o
  exact ⟨final, ho.wait h, hf⟩

-- A step that moves batches, or loses some of them.
theorem moved {s' : Flushing} (o : s.SendsOnce clock)
    (hs : s'.sentWindows.Subperm s.sentWindows) (ha : s'.agg.windows = s.agg.windows)
    (hm : s'.main = .running → s.main = .running) : s'.SendsOnce clock := by
  obtain ⟨final, ho, hf⟩ := o
  exact ⟨final, ha ▸ ho.subperm hs, fun h => hf (hm h)⟩

theorem record (o : s.SendsOnce now) {r : Record}
    (hr : (FlushEvent.record r).happensAt now) :
    (s.step driver (.record r)).SendsOnce now := by
  simp only [step]
  split_ifs
  case neg => exact o
  case pos hm =>
    obtain ⟨final, ho, hf⟩ := o
    have hf := hf hm
    subst hf
    refine ⟨[], ?_, fun _ => rfl⟩
    cases r
    case request ts stepId latencyUs status isError loopIndex =>
      have hr : ts = now := of_decide_eq_true hr
      subst hr
      exact ho.record (k := (stepId, ts)) (d := .new stepId ts)
        (g := (·.record latencyUs status isError)) rfl (by simp) rfl fun _ => rfl
    all_goals exact ho

-- Windows that are not kept any more are sent. They are of seconds that are over, or the driver
-- does not record any more.
theorem drained {s' : Flushing} {l : List ((String × ℤ) × StepWindow)} (o : s.SendsOnce now)
    (hl : ∀ k w, (k, w) ∈ l → s.agg.windows.lookup k = some w)
    (hr : ∀ k w, s'.agg.windows.lookup k = some w → s.agg.windows.lookup k = some w)
    (hk : (l.map Prod.fst ++ s'.agg.windows.keys).Perm s.agg.windows.keys)
    (hs : s'.sentWindows.Perm (s.sentWindows ++ l.map Prod.snd))
    (hp : (∀ e ∈ l, e.1.2 < now) ∧ (s'.main = .running → s.main = .running) ∨
      s'.main ≠ .running) :
    s'.SendsOnce now := by
  obtain ⟨final, ho, hf⟩ := o
  cases hp
  case inl hp =>
    have hd := ho.drain hl hr hk [] fun k w h => by
      have hw : w.tsSecond = k.2 := congrArg Prod.snd (ho.keyed k w (hl k w h))
      exact .inl (hw ▸ hp.left _ h)
    rw [List.append_nil] at hd
    exact ⟨final, hd.subperm hs.subperm, fun h => hf (hp.right h)⟩
  case inr hp =>
    have hd := ho.drain hl hr hk ((l.map Prod.snd).map windowKey) fun k w h =>
      .inr (List.mem_map_of_mem (List.mem_map_of_mem (f := Prod.snd) h))
    exact ⟨_, hd.subperm hs.subperm, fun h => absurd h hp⟩

theorem sentWindows_idle (h : s.flusher = .idle) : s.sentWindows =
    (s.delivered ++ s.channel.queue ++ s.main.batches).flatMap (·.windows) := by
  simp [sentWindows, h, Flusher.batches]

theorem sentWindows_open (h : s.main.isOpen) : s.sentWindows =
    (s.delivered ++ s.channel.queue ++ s.flusher.batches).flatMap (·.windows) := by
  have hb : s.main.batches = [] := by
    cases hm : s.main
    case running => rfl
    case joined => rfl
    all_goals simp [hm, MainTask.isOpen] at h
  simp [sentWindows, hb]

theorem windows_of_not_hasData (h : f.hasData = false) : f.windows = [] := by
  simp only [MetricFlush.hasData, Bool.or_eq_false_iff, Bool.not_eq_eq_eq_not, Bool.not_false,
    List.isEmpty_iff] at h
  simp [h]

theorem tick_sentWindows (h : s.flusher = .idle) :
    (s.tick driver upToSecond).sentWindows.Perm
      (s.sentWindows ++ (s.agg.drainTick driver upToSecond).1.windows) := by
  rw [sentWindows_idle h, tick]
  generalize s.agg.drainTick driver upToSecond = x
  have hq := send_queue s.channel .flusher x.1
  cases hd : x.1.hasData
  case false =>
    simp [windows_of_not_hasData hd, hd, sentWindows, h, Flusher.batches]
  case true =>
    simp only [hd, if_true]
    cases hs : (s.channel.send .flusher x.1).1
    all_goals
      rw [hs] at hq
      simp [sentWindows, hq, Flusher.batches]
      exact .append_left _ (.append_left _ List.perm_append_comm)

theorem tick (o : s.SendsOnce now) (h : s.flusher = .idle) (hu : upToSecond ≤ now) :
    (s.tick driver upToSecond).SendsOnce now := by
  have hx : (s.agg.drainTick driver upToSecond).1.windows =
    (s.agg.windows.extract (·.2 < upToSecond)).1.map Prod.snd := rfl
  have ha : (s.tick driver upToSecond).agg.windows =
      (s.agg.windows.extract (·.2 < upToSecond)).2 := by
    have hd : (s.agg.drainTick driver upToSecond).2.windows =
        (s.agg.drainCompleted upToSecond).2.windows :=
      (Aggregator.drainBatch_windows fun _ => ⟨_, rfl⟩).left
    simp only [Flushing.tick]
    split_ifs <;> exact hd
  have hm : (s.tick driver upToSecond).main = s.main := by
    simp only [Flushing.tick]
    split_ifs <;> rfl
  refine o.drained (l := (s.agg.windows.extract (·.2 < upToSecond)).1)
    (fun _ _ h => (Table.lookup_of_mem_extract h).left)
    (fun _ _ h => Table.lookup_of_extract (ha ▸ h)) (ha ▸ Table.keys_extract)
    (hx ▸ tick_sentWindows h) (.inl ⟨fun e he => ?_, fun h => hm ▸ h⟩)
  have hk := of_decide_eq_true (Table.lookup_of_mem_extract he).right
  exact hk.trans_le hu

theorem drainFinal_sentWindows (h : s.main = .joined) :
    (s.drainFinal driver).sentWindows.Perm (s.sentWindows ++
      (s.agg.drainFinal driver (if driver = .openLoop then s.dropped else 0)).1.windows) := by
  rw [sentWindows_open (s := s) (by rw [h]; rfl), Flushing.drainFinal]
  generalize s.agg.drainFinal driver (if driver = .openLoop then s.dropped else 0) = x
  have hq := send_queue s.channel .main x.1
  cases Decidable.em (driver = .openLoop ∨ x.1.hasData)
  case inr hd =>
    have hw := windows_of_not_hasData (Bool.eq_false_iff.mpr (not_or.mp hd).right)
    simp [hw, hd, sentWindows, MainTask.batches]
  case inl hd =>
    simp only [hd, if_true]
    cases hs : (s.channel.send .main x.1).1
    case false =>
      rw [hs] at hq
      simp [sentWindows, hq, MainTask.batches]
    case true =>
      rw [hs] at hq
      simp [sentWindows, hq, MainTask.batches]
      exact .append_left _ (.append_left _ List.perm_append_comm)

theorem drainFinal (o : s.SendsOnce now) (h : s.main = .joined) :
    (s.drainFinal driver).SendsOnce now := by
  have hx : (s.agg.drainFinal driver (if driver = .openLoop then s.dropped else 0)).1.windows =
    s.agg.windows.toList.map Prod.snd := rfl
  have ha : (s.drainFinal driver).agg.windows = ∅ := by
    have hd : (s.agg.drainFinal driver (if driver = .openLoop then s.dropped else 0)).2.windows =
        s.agg.drainAll.2.windows :=
      (Aggregator.drainBatch_windows fun _ => ⟨_, rfl⟩).left
    unfold Flushing.drainFinal
    dsimp only
    split_ifs <;> exact hd
  have hm : (s.drainFinal driver).main ≠ .running := by
    unfold Flushing.drainFinal
    dsimp only
    split_ifs <;> simp
  refine o.drained (l := s.agg.windows.toList) (fun _ _ => Table.lookup_of_mem_toList)
    (fun _ _ h => ?_) ?_ (hx ▸ drainFinal_sentWindows h) (.inr hm)
  · rw [ha] at h
    cases h
  · rw [ha, Table.keys_toList]
    simp

theorem step (o : s.SendsOnce clock) (hc : clock ≤ now) (he : e.happensAt now) :
    (s.step driver e).SendsOnce now := by
  have o := o.wait hc
  cases e
  case record => exact o.record he
  case tick =>
    simp only [Flushing.step]
    split_ifs
    case neg => exact o
    case pos h => exact o.tick h (of_decide_eq_true he)
  case drainFinal =>
    simp only [Flushing.step]
    split_ifs
    case neg => exact o
    case pos h => exact o.drainFinal h
  case pollFlusher =>
    simp only [Flushing.step]
    split
    case h_2 => exact o
    case h_1 f hf =>
      have hq := poll_queue s.channel .flusher f
      refine o.moved (List.Perm.subperm ?_) rfl id
      cases hs : (s.channel.poll .flusher f).1 <;> rw [hs] at hq
        <;> simp [sentWindows, hq, hf, Flusher.batches]
  case pollMain =>
    simp only [Flushing.step]
    split
    case h_2 => exact o
    case h_1 f hf =>
      have hq := poll_queue s.channel .main f
      refine o.moved (List.Perm.subperm ?_) rfl ?_
      · cases hs : (s.channel.poll .main f).1 <;> rw [hs] at hq
          <;> simp [sentWindows, hq, hf, MainTask.batches]
        exact .append_left _ (.append_left _ List.perm_append_comm)
      · dsimp only
        split_ifs <;> simp
  case flusherStopped =>
    simp only [Flushing.step]
    split_ifs
    case neg => exact o
    case pos h =>
      refine o.moved (List.Sublist.subperm ?_) rfl (by simp)
      simp [sentWindows, h, Flusher.batches, MainTask.batches]
  case receive =>
    simp only [Flushing.step]
    split
    case h_1 => exact o
    case h_2 f channel hr =>
      refine o.moved (List.Perm.subperm ?_) rfl id
      have hq : s.channel.queue = f :: channel.queue := by
        simp only [FlushChannel.recv] at hr
        split at hr
        case h_1 => cases hr
        case h_2 hq =>
          cases hr
          simpa using hq
      simp [sentWindows, hq]
  case startFlusher =>
    simp only [Flushing.step]
    split_ifs
    case neg => exact o
    case pos h =>
      exact o.moved (List.Perm.subperm (by simp [sentWindows, h, Flusher.batches])) rfl id
  case join =>
    simp only [Flushing.step]
    split_ifs
    case neg => exact o
    case pos h =>
      exact o.moved (List.Perm.subperm (by simp [sentWindows, h, MainTask.batches])) rfl (by simp)
  case abortFlusher =>
    simp only [Flushing.step]
    split_ifs
    case neg => exact o
    case pos h =>
      exact o.moved (List.Perm.subperm (by simp [sentWindows, h, MainTask.batches])) rfl (by simp)
  case cancel => exact o.moved (List.Subperm.refl _) rfl id
  all_goals
    simp only [Flushing.step]
    split_ifs
    case neg => exact o
    case pos => exact o.moved (List.Subperm.refl _) rfl id

end SendsOnce

-- Nothing that was recorded has been lost, and nothing is sent twice.
structure Intact (driver : Driver) (cap : ℕ) (clock : ℤ) (s : Flushing) : Prop where
  accounted : s.Accounted driver
  loopCap   : s.agg.loopCap = cap
  balance   : ∀ m, s.arrived m + s.kept m = s.made m
  once      : s.SendsOnce clock

namespace Intact

variable {cap capacity : ℕ} {outcome : Outcome}

theorem new : (new driver cap capacity).Intact driver cap clock where
  accounted := .new
  loopCap   := rfl
  balance   := fun _ => new_balance
  once      := .new

theorem step (i : s.Intact driver cap clock) (hs : s.StopsEmpty e) (hc : clock ≤ now)
    (he : e.happensAt now) : (s.step driver e).Intact driver cap now where
  accounted := i.accounted.step
  loopCap   := step_loopCap.trans i.loopCap
  balance   := fun m => by
    have hb := step_balance (m := m) (e := e) i.accounted
    have hz := stopsEmpty_iff.mp hs m
    have hm := i.balance m
    omega
  once      := i.once.step hc he

-- When the driver has returned and everything has been received, all that was recorded has been
-- delivered, and every window in one batch.
theorem delivered_tally (i : s.Intact driver cap clock) (ho : s.main = .returned outcome)
    (hq : s.channel.queue = []) (m : Metric) :
    (s.delivered.map (·.tally m)).sum =
      (s.recorded.map (·.tally cap m)).sum + Metric.one s.dropped .dropped m := by
  have hk : s.kept m = 0 := by
    have hz := i.accounted.drained (by rw [ho]; rfl) m
    have hf := i.accounted.stopped outcome ho
    simp only [kept]
    rw [hf, ho, hz]
    rfl
  have hb := i.balance m
  rw [hk, Nat.add_zero, arrived, hq, List.append_nil, made, i.loopCap] at hb
  exact hb

theorem delivered_nodup (i : s.Intact driver cap clock) :
    ((s.delivered.flatMap (·.windows)).map windowKey).Nodup := by
  obtain ⟨_, ho, _⟩ := i.once
  refine (List.nodup_append.mp ho.nodup).left.sublist (List.Sublist.map _ ?_)
  simp [sentWindows]

end Intact

-- A driver that has returned sends nothing any more.
theorem step_returned {outcome : Outcome} (a : s.Accounted driver)
    (h : s.main = .returned outcome) :
    (s.step driver e).main = .returned outcome ∧
      (s.step driver e).channel.queue <:+ s.channel.queue := by
  have hf := a.stopped outcome h
  cases e
  case receive =>
    simp only [Flushing.step]
    split
    case h_1 => exact ⟨h, List.suffix_rfl⟩
    case h_2 f channel hr =>
      refine ⟨h, ?_⟩
      simp only [FlushChannel.recv] at hr
      split at hr
      case h_1 => cases hr
      case h_2 hq =>
        cases hr
        simp [hq]
  all_goals simp [Flushing.step, h, hf]

end Flushing

end Engine
