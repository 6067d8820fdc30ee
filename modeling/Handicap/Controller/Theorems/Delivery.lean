import Handicap.Controller.Theorems.Pipeline
import Handicap.Coordinator.Theorems.Calls
import Handicap.Report.Theorems

open Coordinator Store Worker Report

namespace Controller

section Runs

variable {rw rw' : RunWorkers} {worker w : WorkerId} {phase : ℤ} {c : Call}

-- The run knows of a terminal phase of a worker.
def recorded (rw : RunWorkers) (worker : WorkerId) : Bool :=
  ((rw.workers.lookup worker).map (·.phase.isTerminal)).getD false

-- What is kept by a call that does not report a phase.
structure Keeps (rw rw' : RunWorkers) : Prop where
  recorded : ∀ w, recorded rw' w = recorded rw w
  member   : ∀ w, (rw.workers.lookup w).isSome → (rw'.workers.lookup w).isSome ∨ rw'.terminal
  ended    : rw.terminal → rw' = rw

theorem Keeps.refl : Keeps rw rw :=
  ⟨fun _ => rfl, fun _ => .inl, fun _ => rfl⟩

theorem exec_keeps (hc : ∀ w phase, c ≠ .recordPhase w phase) : Keeps rw (rw.exec c).2 := by
  have hs := RunWorkers.exec_step rw c
  generalize (rw.exec c).1 = e, (rw.exec c).2 = rw' at hs
  cases hs
  case register r =>
    cases r
    case rejected => exact .refl
    case resent => exact .refl
    case admitted ht hn =>
      refine ⟨fun w => ?_, fun w hw => .inl ?_, fun h => absurd h (by simp [ht])⟩
      all_goals simp only [recorded, RunWorkers.lookup_addWorker]
      all_goals split_ifs
      case pos hw => subst hw; simp [hn, Pb.Phase.isTerminal]
      case neg => rfl
      case pos => rfl
      case neg => exact hw
  case recordPhase => exact absurd rfl (hc _ _)
  case workerDisconnected worker o d =>
    cases d
    case harmless => exact .refl
    case lost e ht he hp =>
      refine ⟨fun w => ?_, fun _ _ => .inr rfl, fun h => absurd h (by simp [ht])⟩
      cases Decidable.em (w = worker)
      case inl hw => subst hw; simp [recorded, he, hp]
      case inr hw => simp [recorded, AList.lookup_erase_ne hw]
  case failRunHung h =>
    cases h
    case ended => exact .refl
    case hung ht => exact ⟨fun _ => rfl, fun _ => .inl, fun h => absurd h (by simp [ht])⟩

-- A report changes the phase of its worker, and completes the run only if all of its workers have
-- completed.
structure Reports (rw : RunWorkers) (worker : WorkerId) (decision : Finalize) (rw' : RunWorkers) :
    Prop where
  lookup    : ∀ w, w ≠ worker → rw'.workers.lookup w = rw.workers.lookup w
  member    : ∀ w, (rw'.workers.lookup w).isSome = (rw.workers.lookup w).isSome
  ended     : rw.terminal → rw'.terminal
  completed : decision = .completed →
    rw.terminal = false ∧ rw'.terminal ∧
      ∀ w e, rw'.workers.lookup w = some e → e.phase = .completed

theorem recordPhase_reports :
    Reports rw worker (rw.recordPhase worker phase).1 (rw.recordPhase worker phase).2 := by
  have h : RunWorkers.Records rw worker phase (rw.recordPhase worker phase).1
      (rw.recordPhase worker phase).2 := RunWorkers.records rfl
  have hl w (hw : w ≠ worker) : (rw.setPhase worker (phaseOf phase)).workers.lookup w =
      rw.workers.lookup w := by
    rw [RunWorkers.lookup_setPhase, if_neg hw]
  have hm w : ((rw.setPhase worker (phaseOf phase)).workers.lookup w).isSome =
      (rw.workers.lookup w).isSome := by
    rw [RunWorkers.lookup_setPhase]
    split_ifs
    case pos => exact Option.isSome_map
    case neg => rfl
  generalize (rw.recordPhase worker phase).1 = f, (rw.recordPhase worker phase).2 = rw' at h
  cases h
  case kept => exact ⟨hl, hm, by simp, by simp⟩
  case failed => exact ⟨hl, hm, by simp, by simp⟩
  case aborted => exact ⟨hl, hm, by simp, by simp⟩
  case completed ht _ hc =>
    exact ⟨hl, hm, by simp, fun _ => ⟨ht, rfl, RunWorkers.allCompleted_iff.mp hc.left⟩⟩

end Runs

namespace Delivery

-- The statistics of one worker.
def statsOf (worker : WorkerId) (m : RunMetrics) : List MetricStats :=
  (m.stats.filter fun b => b.1 = worker).map Prod.snd

def pipeline (s : Delivery) (worker : WorkerId) : Pipeline where
  execution := s.executions worker
  inFlight  := s.inFlight worker
  broken    := s.broken worker
  handler   := s.handlers worker
  recorded  := recorded s.run worker
  rows      := rowsOf worker s.metrics.rows
  stats     := statsOf worker s.metrics

variable {wr : Writers} {s : Delivery} {worker w : WorkerId} {e : WorkerEvent} {n : ℕ}

structure Sound (wr : Writers) (s : Delivery) : Prop where
  tracked   : ∀ w, (s.pipeline w).Tracked wr.statusText w
  member    : ∀ w, (s.executions w).stage ≠ .waiting →
    (s.run.workers.lookup w).isSome ∨ s.run.terminal ∧ s.completed = false
  completed : s.completed → s.run.terminal ∧
    ∀ w e, s.run.workers.lookup w = some e → e.phase = .completed
  building  : ∀ w, s.handlers w = .buildReport → s.completed
  verdict   : ∀ m, s.verdict = some m → s.completed ∧ m = s.metrics
  owned     : ∀ w, ∀ b ∈ (s.executions w).produced, b.workerId = w

namespace Sound

-- A worker of a completed run has never begun, or has sent everything, and everything has been
-- dealt with.
theorem quiet (h : s.Sound wr) (hc : s.completed) (w : WorkerId) :
    s.inFlight w = [] ∧ (s.handlers w = .idle ∨ s.handlers w = .buildReport) ∧
      ((s.executions w).stage = .waiting ∨
        (s.executions w).stage = .reported ∧ (s.pipeline w).Reported) := by
  cases hs : (s.executions w).stage
  case waiting =>
    have ⟨_, hl, hh, _⟩ := (h.tracked w).waiting hs
    exact ⟨hl, .inl hh, .inl rfl⟩
  all_goals
    have hm := (h.member w (by simp [hs])).resolve_right (by simp [hc])
    have ⟨e, he⟩ := Option.isSome_iff_exists.mp hm
    have hp := (h.completed hc).right w e he
    have hr : recorded s.run w := by simp [recorded, he, hp, Pb.Phase.isTerminal]
    have hst : (s.executions w).stage = .reported := (h.tracked w).sent (.inr (.inr hr))
    refine ⟨(h.tracked w).drained (.inr hr), (h.tracked w).finished hr, .inr ⟨?_, .inr hr⟩⟩
    exact hs.symm.trans hst

theorem calls {rw : RunWorkers} (h : s.Sound wr) (k : Keeps s.run rw) :
    { s with run := rw }.Sound wr := by
  cases ht : s.run.terminal
  case true => exact k.ended ht ▸ h
  case false =>
    have hc : s.completed = false := by
      by_contra hc
      simp [(h.completed (by simpa using hc)).left] at ht
    refine ⟨fun w => ?_, fun w hw => ?_, fun hc' => by simp [hc] at hc', h.building, h.verdict,
      h.owned⟩
    · have he : { s with run := rw }.pipeline w = s.pipeline w := by
        simp [pipeline, k.recorded]
      exact he ▸ h.tracked w
    · have hm := (h.member w hw).resolve_right (by simp [ht])
      exact (k.member w hm).imp_right fun ht => ⟨ht, hc⟩

theorem disconnect (h : s.Sound wr) : (s.step wr (.disconnect worker n)).Sound wr := by
  refine ⟨fun w => ?_, h.member, h.completed, h.building, h.verdict, h.owned⟩
  cases Decidable.em (w = worker)
  case inl hw =>
    subst hw
    simpa [step, pipeline] using (h.tracked w).disconnect (n := n)
  case inr hw => simpa [step, pipeline, hw] using h.tracked w

theorem workerStep (h : s.Sound wr) : (s.workerStep wr worker e).Sound wr := by
  unfold Delivery.workerStep
  split_ifs
  case pos => exact h
  case neg hn =>
    have hw : (s.executions worker).stage = .waiting → e ≠ .assigned →
      ((s.executions worker).step wr.serialize wr.runId worker (!s.broken worker) e).1 =
        s.executions worker := Execution.step_waiting
    generalize hr : (s.executions worker).step wr.serialize wr.runId worker (!s.broken worker) e = r
      at hw
    have hm : (s.executions worker).Moves worker (!s.broken worker) r.1 r.2 :=
      hr ▸ Execution.step_moves
    refine ⟨fun w => ?tracked, fun w hst => ?member, h.completed, h.building, h.verdict,
      fun w => ?owned⟩
    case tracked =>
      cases Decidable.em (w = worker)
      case inl he =>
        subst he
        simpa [pipeline] using (h.tracked w).execution hm
      case inr he => simpa [pipeline, he] using h.tracked w
    case member =>
      cases Decidable.em (w = worker)
      case inr he => exact h.member w (by simpa [he] using hst)
      case inl he =>
        subst he
        cases Decidable.em ((s.executions w).stage = .waiting)
        case inr hs => exact h.member w hs
        case inl hs =>
          cases Decidable.em (e = .assigned)
          case inl ha => exact .inl (by simpa [ha, Option.isSome_iff_ne_none] using hn)
          case inr ha => exact absurd hs (by simpa [hw hs ha] using hst)
    case owned =>
      cases Decidable.em (w = worker)
      case inr he => simpa [he] using h.owned w
      case inl he =>
        subst he
        simpa using hm.owned (h.owned w)

theorem receive (h : s.Sound wr) : (s.step wr (.receive worker)).Sound wr := by
  simp only [step]
  split
  case h_2 => exact h
  case h_1 m inFlight hh hl =>
    refine ⟨fun w => ?tracked, h.member, h.completed, fun w hb => ?building, h.verdict, h.owned⟩
    case tracked =>
      cases Decidable.em (w = worker)
      case inl he =>
        subst he
        simpa [pipeline, setHandler] using (h.tracked w).receive hh hl
      case inr he => simpa [pipeline, setHandler, he] using h.tracked w
    case building =>
      cases Decidable.em (w = worker)
      case inl he =>
        subst he
        cases m <;> simp [setHandler, received] at hb
      case inr he => exact h.building w (by simpa [setHandler, he] using hb)

-- The handler of a stream leaves those of other streams alone.
theorem setHandler {next : Handler} {rw : RunWorkers} {m : RunMetrics} (h : s.Sound wr)
    (hr : ∀ w, w ≠ worker → recorded rw w = recorded s.run w)
    (hrows : ∀ w, w ≠ worker → rowsOf w m.rows = rowsOf w s.metrics.rows)
    (hstats : ∀ w, w ≠ worker → statsOf w m = statsOf w s.metrics)
    (ht : ({ s with run := rw, metrics := m }.setHandler worker next).pipeline worker
      |>.Tracked wr.statusText worker) (w : WorkerId) :
    (({ s with run := rw, metrics := m }.setHandler worker next).pipeline w).Tracked
      wr.statusText w := by
  cases Decidable.em (w = worker)
  case inl he => exact he ▸ ht
  case inr he =>
    have hp : ({ s with run := rw, metrics := m }.setHandler worker next).pipeline w =
        s.pipeline w := by
      simp [pipeline, Delivery.setHandler, he, hr w he, hrows w he, hstats w he]
    exact hp ▸ h.tracked w

-- Handlers that are not at their end belong to runs that are not completed.
theorem not_completed {next : Handler} (h : s.Sound wr) (hh : s.handlers worker = next)
    (hi : next ≠ .idle) (hb : next ≠ .buildReport) : s.completed = false := by
  by_contra hc
  have hq := (h.quiet (by simpa using hc) worker).right.left
  exact (hh ▸ hq).elim hi hb

theorem building_update {next : Handler} (h : s.Sound wr) (hn : next ≠ .buildReport)
    (hb : Function.update s.handlers worker next w = .buildReport) : s.completed := by
  rw [Function.update_apply] at hb
  split_ifs at hb
  case pos => exact absurd hb hn
  case neg => exact h.building w hb

theorem handle (h : s.Sound wr) : (s.handle wr worker).Sound wr := by
  have ht := h.tracked worker
  unfold Delivery.handle
  split
  case h_1 => exact h
  case h_2 batch hh =>
    refine ⟨?_, h.member, h.completed, fun w => h.building_update (by simp), h.verdict, h.owned⟩
    refine h.setHandler (fun _ _ => rfl) (fun _ _ => rfl) (fun _ _ => rfl) ?_
    simpa [pipeline, Delivery.setHandler, recorded] using ht.firstLoad hh
  case h_3 batch hh =>
    have hc := h.not_completed hh (by simp) (by simp)
    have hw : batch.workerId = worker := ht.owned batch (by simp [pipeline, hh, Handler.statsLeft])
    have hr : ∀ r ∈ metricRows wr.statusText batch, r.workerId.text = worker := by
      simp [metricRows, metricRow, hw]
    refine ⟨?_, h.member, h.completed, fun w => h.building_update (by simp), fun m hv => ?_,
      h.owned⟩
    case refine_2 => exact absurd (h.verdict m hv).left (by simp [hc])
    refine h.setHandler (fun _ _ => rfl) (fun w hne => ?_) (fun _ _ => rfl) ?_
    · exact rowsOf_insertBatch_of_ne fun r hm => hr r hm ▸ hne.symm
    · simpa [pipeline, Delivery.setHandler, rowsOf_insertBatch hr, statsOf] using ht.insertBatch hh
  case h_4 batch hh =>
    have hc := h.not_completed hh (by simp) (by simp)
    have hw : batch.workerId = worker := ht.owned batch (by simp [pipeline, hh, Handler.statsLeft])
    refine ⟨?_, h.member, h.completed, fun w => h.building_update (by simp), fun m hv => ?_,
      h.owned⟩
    case refine_2 => exact absurd (h.verdict m hv).left (by simp [hc])
    refine h.setHandler (fun _ _ => rfl) (fun _ _ => rfl) (fun w hne => ?_) ?_
    · simp [statsOf, hw, hne.symm]
    · simpa [pipeline, Delivery.setHandler, statsOf, hw] using ht.insertStats hh
  case h_5 phase hh =>
    have hc := h.not_completed hh (by simp) (by simp)
    have r : Reports s.run worker (s.run.recordPhase worker phase).1
        (s.run.recordPhase worker phase).2 := recordPhase_reports
    generalize s.run.recordPhase worker phase = d at r
    have hrec w (hw : w ≠ worker) : recorded d.2 w = recorded s.run w := by
      simp [recorded, r.lookup w hw]
    have hmem w (hw : (s.executions w).stage ≠ .waiting) :
        (d.2.workers.lookup w).isSome ∨ d.2.terminal ∧ d.1 ≠ .completed := by
      rw [r.member]
      exact (h.member w hw).imp_right fun hn =>
        ⟨r.ended hn.left, fun hd => by simp [(r.completed hd).left] at hn⟩
    obtain ⟨decision, rw⟩ := d
    dsimp only at r hrec hmem ⊢
    split_ifs
    case pos hd =>
      obtain ⟨_, ht', hall⟩ := r.completed hd
      refine ⟨?_, fun w hw => .inl ((hmem w hw).resolve_right fun hn => hn.right hd),
        fun _ => ⟨ht', hall⟩, fun _ _ => rfl, fun m hv => ?_, h.owned⟩
      case refine_2 => exact absurd (h.verdict m hv).left (by simp [hc])
      refine h.setHandler hrec (fun _ _ => rfl) (fun _ _ => rfl) ?_
      simpa [pipeline, Delivery.setHandler] using ht.recordPhase hh (.inr rfl)
    case neg hd =>
      refine ⟨?_, fun w hw => (hmem w hw).imp_right fun hn => ⟨hn.left, hc⟩, fun hc' => ?_,
        fun w => h.building_update (by simp), h.verdict, h.owned⟩
      case refine_2 => simp [Delivery.setHandler, hc] at hc'
      refine h.setHandler hrec (fun _ _ => rfl) (fun _ _ => rfl) ?_
      simpa [pipeline, Delivery.setHandler] using ht.recordPhase hh (.inl rfl)
  case h_6 hh =>
    have hc := h.building worker hh
    refine ⟨?_, h.member, h.completed, fun w => h.building_update (by simp), fun m hv => ?_,
      h.owned⟩
    case refine_2 => exact ⟨hc, (Option.some.inj hv).symm⟩
    refine h.setHandler (fun _ _ => rfl) (fun _ _ => rfl) (fun _ _ => rfl) ?_
    simpa [pipeline, Delivery.setHandler] using ht.buildReport hh

theorem step (h : s.Sound wr) (e : DeliveryEvent) : (s.step wr e).Sound wr := by
  cases e
  case register worker tx => exact h.calls (exec_keeps (c := .register worker tx) nofun)
  case worker => exact h.workerStep
  case disconnect => exact h.disconnect
  case receive => exact h.receive
  case handle => exact h.handle
  case lost worker => exact h.calls (exec_keeps (c := .workerDisconnected worker) nofun)
  case hung => exact h.calls (exec_keeps (c := .failRunHung) nofun)

theorem after (h : s.Sound wr) (events : List DeliveryEvent) : (s.after wr events).Sound wr :=
  Trace.invariant h fun _ e h => h.step e

-- Once the run is completed, the database is not changed any more.
theorem step_metrics (h : s.Sound wr) (hc : s.completed) (e : DeliveryEvent) :
    (s.step wr e).completed ∧ (s.step wr e).metrics = s.metrics := by
  cases e
  case worker =>
    simp only [Delivery.step, Delivery.workerStep]
    split_ifs
    case pos => exact ⟨hc, rfl⟩
    case neg => exact ⟨hc, rfl⟩
  case receive =>
    simp only [Delivery.step]
    split
    case h_1 => exact ⟨hc, rfl⟩
    case h_2 => exact ⟨hc, rfl⟩
  case handle worker =>
    simp only [Delivery.step, Delivery.handle]
    cases (h.quiet hc worker).right.left
    case inl hh => simp [hh, hc]
    case inr hh => simp [hh, hc, Delivery.setHandler]
  all_goals exact ⟨hc, rfl⟩

theorem after_metrics (h : s.Sound wr) (hc : s.completed) (events : List DeliveryEvent) :
    (s.after wr events).completed ∧ (s.after wr events).metrics = s.metrics := by
  refine (Trace.invariant
    (I := fun s' : Delivery => s'.Sound wr ∧ s'.completed ∧ s'.metrics = s.metrics)
    ⟨h, hc, rfl⟩ fun s' e hs => ?_).right
  have hm := hs.left.step_metrics hs.right.left e
  exact ⟨hs.left.step e, hm.left, hm.right.trans hs.right.right⟩

end Sound

section Completed

variable {base : PendingAssignment} {expected : ℕ} {totalVus : U32}
variable {precomputed : Option (Vector (ℕ × ℕ) expected)}

theorem sound_init : (init (.new base expected totalVus precomputed)).Sound wr where
  tracked   := fun w => by
    refine ⟨by simp [pipeline, init, Handler.statsLeft, Pipeline.upstream, forwarded,
      Execution.waiting], fun _ => ⟨rfl, rfl, rfl, rfl, rfl⟩, fun _ => rfl, trivial, ?_, ?_, ?_,
      fun _ => ⟨[], rfl, rfl⟩, fun _ => ⟨[], rfl, rfl⟩⟩
    all_goals simp [pipeline, init, hasStatus, Pipeline.Reported, recorded, RunWorkers.new]
  member    := fun w h => absurd rfl h
  completed := nofun
  building  := fun w h => by cases h
  verdict   := nofun
  owned     := fun _ _ h => by cases h

-- All windows of a worker, in the order in which they were produced.
def windowsOf (s : Delivery) (worker : WorkerId) : List MetricWindow :=
  (s.executions worker).produced.flatMap (·.windows)

-- Everything that the workers have produced is in the database. Of several windows with the same
-- second and step it keeps the first.
structure Complete (wr : Writers) (s : Delivery) : Prop where
  windows  : ∀ w, ∀ win ∈ s.windowsOf w,
    ∃ r ∈ s.metrics.rows, rowKey r = (win.tsSecond, win.stepId, w)
  distinct : ∀ w, ((s.windowsOf w).map fun win => (win.tsSecond, win.stepId)).Nodup →
    rowsOf w s.metrics.rows = (s.windowsOf w).map (metricRow wr.statusText w)
  stats    : ∀ w, statsOf w s.metrics = (s.executions w).produced.map (·.stats)

-- Nothing that a worker of a completed run has produced is still on its way.
theorem Sound.stored (h : s.Sound wr) (hc : s.completed) (w : WorkerId) :
    rowsOf w s.metrics.rows =
        insertBatch [] ((s.windowsOf w).map (metricRow wr.statusText w)) ∧
      statsOf w s.metrics = (s.executions w).produced.map (·.stats) := by
  have t := h.tracked w
  have hb : (s.executions w).produced.flatMap (metricRows wr.statusText) =
      (s.windowsOf w).map (metricRow wr.statusText w) := by
    rw [windowsOf, List.map_flatMap]
    refine List.flatMap_congr fun b hm => ?_
    rw [metricRows, h.owned w b hm]
  obtain ⟨hl, hh, hs⟩ := h.quiet hc w
  cases hs
  case inl hs =>
    obtain ⟨hp, _, _, hr, hst⟩ := t.waiting hs
    have hp : (s.executions w).produced = [] := hp
    rw [windowsOf, hp]
    exact ⟨hr, hst⟩
  case inr hs =>
    have hf : forwarded (s.executions w).forwarder = [] := t.stopped (by simp [pipeline, hs.left])
    have hu : (s.pipeline w).upstream = [] := by
      simp only [Pipeline.upstream, pipeline, hl, hf, List.flatMap_nil, List.append_nil]
    have hleft : (s.handlers w).rowsLeft = [] ∧ (s.handlers w).statsLeft = [] := by
      cases hh
      case inl he => exact he ▸ ⟨rfl, rfl⟩
      case inr he => exact he ▸ ⟨rfl, rfl⟩
    obtain ⟨done, hp, hr⟩ := t.rows (.inr (.inr hs.right))
    obtain ⟨done', hp', hst⟩ := t.stats (.inr (.inr hs.right))
    have hleft : (s.pipeline w).handler.rowsLeft = [] ∧ (s.pipeline w).handler.statsLeft = [] := hleft
    rw [hu, hleft.left, List.append_nil, List.append_nil] at hp
    rw [hu, hleft.right, List.append_nil, List.append_nil] at hp'
    have hp : (s.executions w).produced = done := hp
    have hp' : (s.executions w).produced = done' := hp'
    exact ⟨hb ▸ hp ▸ hr, hp' ▸ hst⟩

theorem Sound.complete (h : s.Sound wr) (hc : s.completed) : s.Complete wr := by
  have hkey w (win : MetricWindow) : rowKey (metricRow wr.statusText w win) =
    (win.tsSecond, win.stepId, w) := rfl
  refine ⟨fun w win hm => ?windows, fun w hn => ?distinct, fun w => (h.stored hc w).right⟩
  case windows =>
    have hm : metricRow wr.statusText w win ∈
        (s.windowsOf w).map (metricRow wr.statusText w) := List.mem_map_of_mem hm
    have ⟨r, hr, hk⟩ : ∃ r ∈ rowsOf w s.metrics.rows, rowKey r = rowKey (metricRow _ w win) :=
      (h.stored hc w).left ▸ exists_key_of_mem hm
    exact ⟨r, (mem_rowsOf.mp hr).left, hk⟩
  case distinct =>
    rw [(h.stored hc w).left, insertBatch_of_nodup, List.nil_append]
    rw [List.nil_append, List.map_map]
    refine List.Nodup.of_map (fun k : RowKey => (k.1, k.2.1)) ?_
    rwa [List.map_map]

-- Once record_phase has completed the run, everything that its workers have produced is in the
-- database, nothing changes it later, and the report of the verdict has all windows.
theorem verdict_complete {H D B R : Type*} [AddCommMonoid H] (codecs : Codecs H D)
    (breakdown : Name → B)
    (derive : ReportSummary → List ReportWindow → List (ReportStep B) → StatusCounts → R)
    (events later : List DeliveryEvent) :
    let s := (init (.new base expected totalVus precomputed)).after wr events
    let s' := s.after wr later
    s.completed → s.Complete wr ∧ s'.Complete wr ∧ s'.metrics = s.metrics ∧
      ∀ m, s'.verdict = some m → m = s.metrics ∧
        ∀ w, ∀ win ∈ s.windowsOf w, (win.tsSecond, Name.mk win.stepId) ∈
          (buildReport codecs breakdown derive m.rows).windows.map fun w =>
            (w.tsSecond, w.stepId) := by
  intro s s' hc
  have h : s.Sound wr := sound_init.after events
  have h' : s'.Sound wr := h.after later
  have ⟨hc', hm⟩ := h.after_metrics hc later
  refine ⟨h.complete hc, h'.complete hc', hm, fun m hv => ?_⟩
  have hv := (h'.verdict m hv).right.trans hm
  refine ⟨hv, fun w win hw => ?_⟩
  have ⟨r, hr, hk⟩ := (h.complete hc).windows w win hw
  have hk : (r.tsSecond, r.stepId) = (win.tsSecond, Name.mk win.stepId) := by
    have ht : r.tsSecond = win.tsSecond := congrArg Prod.fst hk
    have hs : r.stepId.text = win.stepId := congrArg (·.2.1) hk
    exact Prod.ext ht (congrArg Name.mk hs)
  exact mem_windows_keys.mpr ⟨r, hv ▸ hr, hk⟩

-- Two workers send a batch each. The first of them completes while a batch of the other one is
-- still on its way.
def twoDeliveries : List DeliveryEvent :=
  [.register "v" 0, .worker "v" .assigned, .register "w" 1, .worker "w" .assigned,
   .worker "w" .loaded, .worker "v" .loaded,
   .worker "v" (.flush ⟨[⟨"s", 7, 1, 0, ∅, []⟩], [], [], [], 0, [], [], []⟩),
   .worker "w" (.flush ⟨[⟨"s", 7, 2, 1, ∅, []⟩], [], [], [], 0, [], [], []⟩),
   .worker "w" .forward, .worker "v" .forward, .worker "w" .forward, .worker "v" .forward,
   .receive "w", .receive "v", .handle "v", .handle "w", .handle "w", .handle "v",
   .worker "v" .close, .worker "v" .forward, .worker "v" (.finish .ok), .worker "v" .report,
   .handle "w", .handle "v", .receive "v", .handle "v",
   .worker "w" .close, .worker "w" .forward, .worker "w" (.finish .ok), .worker "w" .report,
   .receive "w", .handle "w"]

def sampleWriters : Writers where
  runId      := "r"
  serialize  := fun _ => some []
  statusText := fun _ => "\x7b\x7d"

theorem verdict_complete_pair :
    let s := (init (.new default 2 2 none)).after sampleWriters twoDeliveries
    let s' := s.after sampleWriters [.handle "w", .receive "w"]
    s.metrics.rows.length = 2 ∧ s.Complete sampleWriters ∧ s'.Complete sampleWriters ∧
      s'.metrics = s.metrics ∧
      ∀ m, s'.verdict = some m → m = s.metrics ∧
        ∀ w, ∀ win ∈ s.windowsOf w, (win.tsSecond, Name.mk win.stepId) ∈
          (buildReport bareCodecs (fun _ => ()) (fun _ _ _ _ => ()) m.rows).windows.map fun w =>
            (w.tsSecond, w.stepId) :=
  ⟨by decide +kernel, verdict_complete bareCodecs (fun _ => ()) (fun _ _ _ _ => ()) twoDeliveries
    [.handle "w", .receive "w"] (by decide +kernel)⟩

end Completed

end Delivery

end Controller
