import Handicap.Controller.Collection
import Handicap.Controller.Theorems.Delivery
import Handicap.Engine.Theorems.Windows

open Coordinator Engine Store Worker Report

namespace Controller

namespace Delivery

variable {wr : Writers} {s : Delivery} {w worker : WorkerId} {e : DeliveryEvent}

-- The status of a worker is in its stream, or has arrived.
def StatusSent (s : Delivery) (w : WorkerId) : Prop :=
  hasStatus (s.inFlight w) ∨ (s.pipeline w).Reported

theorem hasStatus_append {l l' : List Upload} :
    hasStatus (l ++ l') = (hasStatus l || hasStatus l') :=
  List.any_append

theorem hasStatus_of_take {l : List Upload} {n : ℕ} (h : hasStatus (l.take n)) : hasStatus l := by
  rw [← List.take_append_drop n l, hasStatus_append, h]
  rfl

theorem moves_status {connected : Bool} {x x' : Execution} {sent : List Upload}
    (m : x.Moves worker connected x' sent) (h : hasStatus sent) :
    connected ∧ x.stage ≠ .reported ∧ x'.stage = .reported := by
  cases m
  case abandon hs =>
    cases connected
    case false => cases h
    case true => exact ⟨rfl, by simp [hs], rfl⟩
  case report hs _ =>
    cases connected
    case false => cases h
    case true => exact ⟨rfl, by simp [hs], rfl⟩
  case send => cases connected <;> cases h
  all_goals cases h

theorem statusSent_of_calls {rw : RunWorkers} (k : Keeps s.run rw)
    (h : { s with run := rw }.StatusSent w) : s.StatusSent w := by
  simpa [StatusSent, Pipeline.Reported, pipeline, k.recorded] using h

-- A handler that goes on does not get to a status.
theorem statusSent_of_setHandler {s' : Delivery} {next : Handler}
    (hi : s'.inFlight = s.inFlight) (hh : s'.handlers = s.handlers)
    (hr : recorded s'.run w = recorded s.run w) (hn : ∀ phase, next ≠ .recordPhase phase)
    (h : (s'.setHandler worker next).StatusSent w) : s.StatusSent w := by
  simp only [StatusSent, Pipeline.Reported, pipeline, setHandler, hi, hh, hr] at h
  refine h.imp_right (Or.imp_left fun hp => ?_)
  obtain ⟨phase, hp⟩ := hp
  refine ⟨phase, ?_⟩
  rw [Function.update_apply] at hp
  split_ifs at hp
  case pos => exact absurd hp (hn phase)
  case neg => exact hp

theorem receive_statusSent (h : (s.step wr (.receive worker)).StatusSent w) : s.StatusSent w := by
  simp only [step] at h
  split at h
  case h_2 => exact h
  case h_1 m l hh hl =>
    cases Decidable.em (w = worker)
    case inr hw => simpa [StatusSent, Pipeline.Reported, pipeline, setHandler, hw] using h
    case inl hw =>
      subst hw
      cases m
      case runStatus => exact .inl (by simp [hl, hasStatus])
      case metricBatch =>
        simpa [StatusSent, Pipeline.Reported, pipeline, setHandler, received, hl, hh, hasStatus]
          using h

theorem handle_statusSent (h : (s.handle wr worker).StatusSent w) : s.StatusSent w := by
  unfold handle at h
  split at h
  case h_1 => exact h
  case h_2 => exact statusSent_of_setHandler rfl rfl rfl (by simp) h
  case h_3 => exact statusSent_of_setHandler rfl rfl rfl (by simp) h
  case h_4 => exact statusSent_of_setHandler rfl rfl rfl (by simp) h
  case h_6 => exact statusSent_of_setHandler rfl rfl rfl (by simp) h
  case h_5 phase hh =>
    cases Decidable.em (w = worker)
    case inl hw => exact .inr (.inl ⟨phase, hw ▸ hh⟩)
    case inr hw =>
      have hr : recorded (s.run.recordPhase worker phase).2 w = recorded s.run w := by
        simp [recorded, recordPhase_reports.lookup w hw]
      generalize s.run.recordPhase worker phase = d at h hr
      dsimp only at h
      split_ifs at h
      all_goals
        refine statusSent_of_setHandler ?_ ?_ ?_ ?_ h
        exacts [rfl, rfl, hr, by simp]

-- A worker sends its status once, over a stream that is not broken.
theorem step_statusSent (h : (s.step wr e).StatusSent w) :
    s.StatusSent w ∨ s.broken w = false ∧ (s.executions w).stage ≠ .reported ∧
      ((s.step wr e).executions w).stage = .reported := by
  cases e
  case register worker tx =>
    exact .inl (statusSent_of_calls (exec_keeps (c := .register worker tx) (by simp)) h)
  case lost worker =>
    exact .inl (statusSent_of_calls (exec_keeps (c := .workerDisconnected worker) (by simp)) h)
  case hung => exact .inl (statusSent_of_calls (exec_keeps (c := .failRunHung) (by simp)) h)
  case disconnect worker n =>
    refine .inl (h.imp_left fun h => ?_)
    simp only [step, Function.update_apply] at h
    split_ifs at h
    case pos hw => exact hw ▸ hasStatus_of_take h
    case neg => exact h
  case receive worker => exact .inl (receive_statusSent h)
  case handle worker => exact .inl (handle_statusSent h)
  case worker worker e =>
    simp only [step, workerStep] at h ⊢
    split_ifs at h
    case pos => exact .inl h
    case neg hn =>
      rw [if_neg hn]
      cases Decidable.em (w = worker)
      case inr hw => exact .inl (by simpa [StatusSent, Pipeline.Reported, pipeline, hw] using h)
      case inl hw =>
        subst hw
        have hm : (s.executions w).Moves w (!s.broken w)
            ((s.executions w).step wr.serialize wr.runId w (!s.broken w) e).1
            ((s.executions w).step wr.serialize wr.runId w (!s.broken w) e).2 :=
          Execution.step_moves
        simp only [StatusSent, Pipeline.Reported, pipeline, Function.update_self, hasStatus_append,
          Bool.or_eq_true, or_assoc] at h
        simp only [StatusSent, Pipeline.Reported, pipeline, Function.update_self]
        cases h
        case inl h => exact .inl (.inl h)
        case inr h =>
          cases h
          case inr h => exact .inl (.inr h)
          case inl h =>
            obtain ⟨hc, hs, hs'⟩ := moves_status hm h
            exact .inr ⟨by simpa using hc, hs, hs'⟩

-- A worker that goes on without its engine.
structure GoesOn (x x' : Execution) : Prop where
  flushes   : x'.flushes = x.flushes
  closed    : x'.closed = x.closed
  forwarder : x'.forwarder = x.forwarder
  produced  : x'.produced = x.produced
  stage     : x'.stage = x.stage ∨ x.stage = .waiting ∧ x'.stage = .loading ∨
    x.stage = .loading ∧ x'.stage ≠ .waiting ∨
    x.stage = .running ∧ x'.stage = .reported ∧ x.forwarder = .ended

theorem GoesOn.refl {x : Execution} : GoesOn x x :=
  ⟨rfl, rfl, rfl, rfl, .inl rfl⟩

theorem execution_goesOn {x : Execution} {connected : Bool} {e : WorkerEvent}
    (he : (DeliveryEvent.worker w e).ofEngine = false ∨ ∃ result, e = .finish result) :
    GoesOn x (x.step wr.serialize wr.runId w connected e).1 := by
  cases e
  case assigned =>
    simp only [Execution.step]
    split_ifs
    case pos h => exact ⟨rfl, rfl, rfl, rfl, .inr (.inl ⟨h, rfl⟩)⟩
    case neg => exact .refl
  case loaded =>
    simp only [Execution.step]
    split_ifs
    case pos h => exact ⟨rfl, rfl, rfl, rfl, .inr (.inr (.inl ⟨h, by simp⟩))⟩
    case neg => exact .refl
  case loadFailed =>
    simp only [Execution.step]
    split_ifs
    case pos h => exact ⟨rfl, rfl, rfl, rfl, .inr (.inr (.inl ⟨h, by simp⟩))⟩
    case neg => exact .refl
  case finish =>
    simp only [Execution.step]
    split_ifs
    case pos => exact ⟨rfl, rfl, rfl, rfl, .inl rfl⟩
    case neg => exact .refl
  case report =>
    simp only [Execution.step, Execution.report]
    split_ifs
    case neg => exact .refl
    case pos h =>
      split
      case h_1 hf _ => exact ⟨rfl, rfl, rfl, rfl, .inr (.inr (.inr ⟨h, rfl, hf⟩))⟩
      case h_2 => exact .refl
  all_goals simp [DeliveryEvent.ofEngine] at he

theorem step_goesOn (wr : Writers) (s : Delivery) (w : WorkerId)
    (he : e.ofEngine = false ∨ ∃ w result, e = .worker w (.finish result)) :
    GoesOn (s.executions w) ((s.step wr e).executions w) := by
  cases e
  case worker worker e =>
    simp only [step, workerStep]
    split_ifs
    case pos => exact .refl
    case neg =>
      cases Decidable.em (w = worker)
      case inr hw => simpa [hw] using GoesOn.refl
      case inl hw =>
        subst hw
        have he : (DeliveryEvent.worker w e).ofEngine = false ∨ ∃ result, e = .finish result := by
          refine he.imp_right fun hf => ?_
          obtain ⟨_, result, h⟩ := hf
          cases h
          exact ⟨result, rfl⟩
        simpa using execution_goesOn he
  case receive worker =>
    simp only [step]
    split <;> exact .refl
  case handle worker =>
    have hx : (s.handle wr worker).executions = s.executions := by
      unfold handle
      split <;> try rfl
      case h_5 => dsimp only; split_ifs <;> rfl
    exact (congrFun hx w) ▸ GoesOn.refl
  all_goals exact .refl

theorem step_broken (wr : Writers) (e : DeliveryEvent) (h : s.broken w) : (s.step wr e).broken w := by
  cases e
  case worker worker e =>
    simp only [step, workerStep]
    split_ifs <;> exact h
  case receive worker =>
    simp only [step]
    split <;> exact h
  case handle worker =>
    have hx : (s.handle wr worker).broken = s.broken := by
      unfold handle
      split <;> try rfl
      case h_5 => dsimp only; split_ifs <;> rfl
    exact hx ▸ h
  case disconnect worker n =>
    simp only [step, Function.update_apply]
    split_ifs
    case pos => rfl
    case neg => exact h
  all_goals exact h

end Delivery

namespace Collection

variable {driver : Driver} {cap : ℕ} {wr : Writers} {s : Collection} {w worker : WorkerId}
  {e : DeliveryEvent} {event : CollectionEvent} {outcome : Engine.Outcome}

-- The engine of a worker, with what the worker knows of it. The channel is only closed when the
-- engine has returned and everything has been received, and no status is sent before, unless the
-- engine has not been started.
structure Linked (driver : Driver) (cap : ℕ) (wr : Writers) (s : Collection) (w : WorkerId) :
    Prop where
  intact    : (s.engines w).Intact driver cap (s.clocks w)
  unstarted : (s.delivery.executions w).stage = .waiting ∨
    (s.delivery.executions w).stage = .loading → s.engines w = .new driver cap flushCapacity
  reported  : (s.delivery.executions w).stage = .reported →
    (s.delivery.executions w).forwarder = .ended ∨ s.engines w = .new driver cap flushCapacity
  flushes   : (s.delivery.executions w).flushes = []
  closed    : (s.delivery.executions w).closed → (s.delivery.executions w).forwarder = .ended ∧
    (s.engines w).channel.queue = [] ∧ ∃ outcome, (s.engines w).main = .returned outcome
  ended     : (s.delivery.executions w).forwarder = .ended →
    (s.delivery.executions w).closed ∨ s.delivery.broken w
  produced  : (s.delivery.executions w).produced =
    (s.engines w).delivered.filterMap (metricBatch wr.serialize wr.runId w)
  sent      : s.delivery.StatusSent w →
    (s.delivery.executions w).closed ∨ s.engines w = .new driver cap flushCapacity

namespace Linked

theorem congr {s' : Collection} (l : s.Linked driver cap wr w)
    (hx : s'.delivery.executions w = s.delivery.executions w)
    (hb : s'.delivery.broken w = s.delivery.broken w)
    (hs : s'.delivery.StatusSent w → s.delivery.StatusSent w)
    (hg : s'.engines w = s.engines w) (hc : s'.clocks w = s.clocks w) :
    s'.Linked driver cap wr w where
  intact    := hg ▸ hc ▸ l.intact
  unstarted := hx ▸ hg ▸ l.unstarted
  reported  := hx ▸ hg ▸ l.reported
  flushes   := hx ▸ l.flushes
  closed    := hx ▸ hg ▸ l.closed
  ended     := hx ▸ hb ▸ l.ended
  produced  := hx ▸ hg ▸ l.produced
  sent      := fun h => hx ▸ hg ▸ l.sent (hs h)

theorem delivery (l : s.Linked driver cap wr w)
    (he : e.ofEngine = false ∨ ∃ w result, e = .worker w (.finish result)) :
    { s with delivery := s.delivery.step wr e }.Linked driver cap wr w := by
  obtain ⟨hfl, hc, hfw, hp, hs⟩ := Delivery.step_goesOn wr s.delivery w he
  have hb : s.delivery.broken w → _ := Delivery.step_broken wr e
  refine ⟨l.intact, ?unstarted, ?reported, hfl.trans l.flushes, ?closed, ?ended, hp.trans l.produced,
    ?sent⟩
  case unstarted =>
    intro h
    apply l.unstarted
    obtain hs | hs | hs | hs := hs
    · exact hs ▸ h
    · exact .inl hs.left
    · exact .inr hs.left
    · simp [hs.right.left] at h
  case reported =>
    intro h
    simp only [hfw]
    obtain hs | hs | hs | hs := hs
    · exact l.reported (hs ▸ h)
    · exact .inr (l.unstarted (.inl hs.left))
    · exact .inr (l.unstarted (.inr hs.left))
    · exact .inl hs.right.right
  case closed =>
    intro h
    simp only [hc] at h
    simpa only [hfw] using l.closed h
  case ended =>
    intro h
    simp only [hfw] at h
    simp only [hc]
    exact (l.ended h).imp_right hb
  case sent =>
    intro h
    simp only [hc]
    cases Delivery.step_statusSent h
    case inl h => exact l.sent h
    case inr h =>
      obtain ⟨hb, hn, hr⟩ := h
      obtain hs | hs | hs | hs := hs
      · exact absurd (hs.symm.trans hr) hn
      · exact .inr (l.unstarted (.inl hs.left))
      · exact .inr (l.unstarted (.inr hs.left))
      · exact .inl ((l.ended hs.right.right).resolve_right (by simp [hb]))

theorem step_delivered {g : Flushing} {f : FlushEvent} (h : f ≠ .receive) :
    (g.step driver f).delivered = g.delivered := by
  cases f
  case tick =>
    simp only [Flushing.step, Flushing.tick]
    split_ifs <;> rfl
  case drainFinal =>
    simp only [Flushing.step, Flushing.drainFinal]
    split_ifs <;> rfl
  case pollFlusher =>
    simp only [Flushing.step]
    split <;> rfl
  case pollMain =>
    simp only [Flushing.step]
    split <;> rfl
  case cancel => rfl
  case receive => exact absurd rfl h
  all_goals
    simp only [Flushing.step]
    split_ifs <;> rfl

-- A worker whose engine runs has not sent its status.
theorem not_sent (h : s.delivery.Sound wr) (hr : (s.delivery.executions w).stage = .running) :
    ¬s.delivery.StatusSent w := by
  intro hs
  have hs : (s.delivery.executions w).stage = .reported := (h.tracked w).sent hs
  simp [hr] at hs

theorem engineStep {now : ℤ} {f : FlushEvent} (l : s.Linked driver cap wr w)
    (h : s.delivery.Sound wr) (hs : (s.engines worker).StopsEmpty f) :
    (s.engineStep driver worker now f).Linked driver cap wr w := by
  unfold Collection.engineStep
  split_ifs
  case neg => exact l
  case pos hg =>
    obtain ⟨hr, hc, hn, hf⟩ := hg
    cases Decidable.em (w = worker)
    case inr hw => exact l.congr rfl rfl id (by simp [hw]) (by simp [hw])
    case inl hw =>
      subst hw
      refine ⟨by simpa using l.intact.step hs hc hn, by simp [hr], by simp [hr], l.flushes, ?_,
        l.ended, by simpa [step_delivered hf] using l.produced, fun h' => absurd h' (not_sent h hr)⟩
      intro hcl
      obtain ⟨he, hq, outcome, ho⟩ := l.closed hcl
      obtain ⟨hm, hsuf⟩ := Flushing.step_returned (e := f) l.intact.accounted ho
      rw [hq] at hsuf
      exact ⟨he, by simpa using List.suffix_nil.mp hsuf, outcome, by simpa using hm⟩

-- What the forwarder does with a batch that it receives.
theorem receive_execution (wr : Writers) (w : WorkerId) (connected : Bool) (f : MetricFlush)
    {x : Execution}
    (hr : x.stage = .running) (hf : x.forwarder = .receiving) (hfl : x.flushes = [])
    (hc : x.closed = false) :
    let x₁ := (x.step wr.serialize wr.runId w connected (.flush f)).1
    (x.step wr.serialize wr.runId w connected (.flush f)).2 = [] ∧
    (x₁.step wr.serialize wr.runId w connected .forward).2 = [] ∧
    (x₁.step wr.serialize wr.runId w connected .forward).1 =
      { x with
        forwarder := (metricBatch wr.serialize wr.runId w f).elim .receiving .sending
        produced  := x.produced ++ (metricBatch wr.serialize wr.runId w f).toList } := by
  have h1 : x.step wr.serialize wr.runId w connected (.flush f) =
      ({ x with flushes := [f] }, []) := by
    simp [Execution.step, hr, hc, hfl, flushCapacity]
  rw [h1]
  cases hb : metricBatch wr.serialize wr.runId w f
  case none => simp [Execution.step, Execution.forward, hr, hf, hfl, hb]
  case some => simp [Execution.step, Execution.forward, hr, hf, hfl, hb]

theorem worker_step {d : Delivery} {e : WorkerEvent} (he : e ≠ .assigned) :
    d.step wr (.worker worker e) =
      { d with
        executions := Function.update d.executions worker ((d.executions worker).step
          wr.serialize wr.runId worker (!d.broken worker) e).1
        inFlight   := Function.update d.inFlight worker (d.inFlight worker ++
          ((d.executions worker).step wr.serialize wr.runId worker (!d.broken worker) e).2) } := by
  simp [Delivery.step, Delivery.workerStep, he]

-- The forwarder receives a batch of its engine.
theorem forward_batch {f : MetricFlush} {channel : FlushChannel} (l : s.Linked driver cap wr worker)
    (h : s.delivery.Sound wr) (hr : (s.delivery.executions worker).stage = .running)
    (hf : (s.delivery.executions worker).forwarder = .receiving)
    (hq : (s.engines worker).channel.recv = some (f, channel)) :
    { s with
      engines  := Function.update s.engines worker ((s.engines worker).step driver .receive)
      delivery := (s.delivery.step wr (.worker worker (.flush f))).step wr
        (.worker worker .forward) }.Linked driver cap wr worker := by
  have hc : (s.delivery.executions worker).closed = false := by
    by_contra hc
    simpa [hf] using (l.closed (by simpa using hc)).left
  obtain ⟨h1, h2, h3⟩ := receive_execution wr worker (!s.delivery.broken worker) f hr hf l.flushes hc
  have hg : ((s.engines worker).step driver .receive).delivered =
      (s.engines worker).delivered ++ [f] := by
    simp [Flushing.step, hq]
  have hn := not_sent h hr
  rw [worker_step (by simp), worker_step (by simp)]
  refine ⟨?intact, ?unstarted, ?reported, ?flushes, ?closed, ?ended, ?produced, ?sent⟩
  case intact =>
    simpa using l.intact.step (e := .receive) (fun h => absurd h.left (by simp)) le_rfl rfl
  all_goals simp only [Function.update_self, h1, h2, h3, List.append_nil]
  case unstarted => simp [hr]
  case reported => simp [hr]
  case flushes => exact l.flushes
  case closed => simp [hc]
  case ended => cases metricBatch wr.serialize wr.runId worker f <;> simp
  case produced =>
    rw [hg, l.produced]
    cases hb : metricBatch wr.serialize wr.runId worker f <;> simp [hb]
  case sent =>
    intro hs
    refine absurd ?_ hn
    simpa [Delivery.StatusSent, Pipeline.Reported, Delivery.pipeline] using hs

theorem forward_closed (l : s.Linked driver cap wr worker) (h : s.delivery.Sound wr)
    (hr : (s.delivery.executions worker).stage = .running)
    (hf : (s.delivery.executions worker).forwarder = .receiving)
    (hq : (s.engines worker).channel.recv = none) (ho : (s.engines worker).main = .returned outcome) :
    { s with
      delivery := (s.delivery.step wr (.worker worker .close)).step wr
        (.worker worker .forward) }.Linked driver cap wr worker := by
  have hq : (s.engines worker).channel.queue = [] := by
    unfold FlushChannel.recv at hq
    split at hq
    case h_1 he => exact he
    case h_2 => cases hq
  have hn := not_sent h hr
  rw [worker_step (by simp), worker_step (by simp)]
  refine ⟨l.intact, ?unstarted, ?reported, ?flushes, ?closed, ?ended, ?produced, ?sent⟩
  all_goals
    simp only [Function.update_self, Execution.step, Execution.forward, hr, hf, l.flushes, if_true]
  case unstarted => simp
  case reported => simp
  case closed => exact fun _ => ⟨trivial, hq, outcome, ho⟩
  case ended => simp
  case produced => exact l.produced
  case sent =>
    intro hs
    refine absurd ?_ hn
    simpa [Delivery.StatusSent, Pipeline.Reported, Delivery.pipeline] using hs

-- What the forwarder does with a batch that it has received.
theorem sending_execution (wr : Writers) (w : WorkerId) (connected : Bool) {x : Execution}
    (hr : x.stage = .running)
    (hf : x.forwarder ≠ .receiving) : ∃ forwarder,
      (x.step wr.serialize wr.runId w connected .forward).1 = { x with forwarder } ∧
      (forwarder = .ended → x.forwarder = .ended ∨ connected = false) ∧
      (x.forwarder = .ended → forwarder = .ended) := by
  cases hw : x.forwarder
  case receiving => exact absurd hw hf
  case sending batch =>
    exact ⟨if connected then .receiving else .ended,
      by simp [Execution.step, Execution.forward, hr, hw], by simp, by simp⟩
  case ended =>
    refine ⟨.ended, ?_, by simp, by simp⟩
    cases x
    subst hw
    simp only at hr
    simp [Execution.step, Execution.forward, hr]

theorem forward_sending (l : s.Linked driver cap wr worker) (h : s.delivery.Sound wr)
    (hr : (s.delivery.executions worker).stage = .running)
    (hf : (s.delivery.executions worker).forwarder ≠ .receiving) :
    { s with
      delivery := s.delivery.step wr (.worker worker .forward) }.Linked driver cap wr worker := by
  obtain ⟨forwarder, hx, he, hk⟩ := sending_execution wr worker (!s.delivery.broken worker) hr hf
  have hx' : (s.delivery.step wr (.worker worker .forward)).executions worker =
      { s.delivery.executions worker with forwarder } := by
    rw [worker_step (by simp), ← hx]
    exact Function.update_self ..
  have hb : s.delivery.broken worker → _ := Delivery.step_broken wr (.worker worker .forward)
  refine ⟨l.intact, ?unstarted, ?reported, ?flushes, ?closed, ?ended, ?produced, ?sent⟩
  case sent =>
    intro hs
    have hs : (s.delivery.step wr (.worker worker .forward)).StatusSent worker := hs
    cases Delivery.step_statusSent hs
    case inl hs => exact absurd hs (not_sent h hr)
    case inr hs => simp [hx', hr] at hs
  all_goals simp only [hx']
  case unstarted => simp [hr]
  case reported => simp [hr]
  case flushes => exact l.flushes
  case produced => exact l.produced
  case closed =>
    intro hc
    have hc := l.closed hc
    exact ⟨hk hc.left, hc.right⟩
  case ended =>
    intro hf
    cases he hf
    case inl hf => exact (l.ended hf).imp_right hb
    case inr hf => exact .inr (hb (by simpa using hf))

-- The other workers are left alone.
theorem worker_frame (wr : Writers) (d : Delivery) (e : WorkerEvent) (hw : w ≠ worker) :
    (d.step wr (.worker worker e)).executions w = d.executions w ∧
    (d.step wr (.worker worker e)).broken w = d.broken w ∧
    ((d.step wr (.worker worker e)).StatusSent w → d.StatusSent w) := by
  simp only [Delivery.step, Delivery.workerStep]
  split_ifs
  case pos => exact ⟨rfl, rfl, id⟩
  case neg =>
    refine ⟨by simp [hw], rfl, fun h => ?_⟩
    simpa [Delivery.StatusSent, Pipeline.Reported, Delivery.pipeline, hw] using h

theorem worker_frame_two (wr : Writers) (d : Delivery) (e e' : WorkerEvent) (hw : w ≠ worker) :
    let d' := (d.step wr (.worker worker e)).step wr (.worker worker e')
    d'.executions w = d.executions w ∧ d'.broken w = d.broken w ∧
      (d'.StatusSent w → d.StatusSent w) := by
  obtain ⟨hx, hb, hs⟩ := worker_frame wr d e hw
  obtain ⟨hx', hb', hs'⟩ := worker_frame wr (d.step wr (.worker worker e)) e' hw
  exact ⟨hx'.trans hx, hb'.trans hb, fun h => hs (hs' h)⟩

theorem forward (l : s.Linked driver cap wr w)
    (h : s.delivery.Sound wr) : (s.forward driver wr worker).Linked driver cap wr w := by
  cases Decidable.em (w = worker)
  case inl hw =>
    subst hw
    unfold Collection.forward
    split_ifs
    case neg => exact l
    case pos hr =>
      split
      case h_2 hf => exact l.forward_sending h hr hf
      case h_1 hf =>
        split
        case h_1 hq => exact l.forward_batch h hr hf hq
        case h_2 hq ho => exact l.forward_closed h hr hf hq ho
        case h_3 => exact l
  case inr hw =>
    unfold Collection.forward
    split_ifs
    case neg => exact l
    case pos hr =>
      split
      case h_2 =>
        obtain ⟨hx, hb, hs⟩ := worker_frame wr s.delivery .forward hw
        exact l.congr hx hb hs rfl rfl
      case h_1 =>
        split
        case h_1 f _ _ =>
          obtain ⟨hx, hb, hs⟩ := worker_frame_two wr s.delivery (.flush f) .forward hw
          exact l.congr hx hb hs (by simp [hw]) rfl
        case h_2 =>
          obtain ⟨hx, hb, hs⟩ := worker_frame_two wr s.delivery .close .forward hw
          exact l.congr hx hb hs rfl rfl
        case h_3 => exact l

end Linked

-- A flusher that is stopped does not hold a batch.
def stopsIdle (s : Collection) : CollectionEvent → Bool
  | .engine worker _ .flusherStopped =>
    (s.engines worker).main = .aborting → (s.engines worker).flusher.batches = []
  | _                                => true

theorem stopsEmpty_of_stopsIdle {now : ℤ} {f : FlushEvent}
    (h : s.stopsIdle (.engine worker now f)) : (s.engines worker).StopsEmpty f := by
  intro hs m
  obtain ⟨he, hm⟩ := hs
  subst he
  have hb := of_decide_eq_true h hm
  cases hf : (s.engines worker).flusher
  case sending f => simp [hf, Flusher.batches] at hb
  all_goals rfl

structure Sound (driver : Driver) (cap : ℕ) (wr : Writers) (s : Collection) : Prop where
  delivery : s.delivery.Sound wr
  linked   : ∀ w, s.Linked driver cap wr w

namespace Sound

theorem init {base : PendingAssignment} {expected : ℕ} {totalVus : U32} {clocks : WorkerId → ℤ}
    {precomputed : Option (Vector (ℕ × ℕ) expected)} :
    (init driver cap clocks (.new base expected totalVus precomputed)).Sound driver cap wr where
  delivery := Delivery.sound_init
  linked   := fun w =>
    { intact    := .new
      unstarted := fun _ => rfl
      reported  := fun h => by cases h
      flushes   := rfl
      closed    := fun h => by cases h
      ended     := fun h => by cases h
      produced  := by
        simp only [Collection.init, Flushing.new, List.filterMap_nil]
        rfl
      sent      := fun _ => .inr rfl }

theorem step (h : s.Sound driver cap wr) (hs : s.stopsIdle event) :
    (s.step driver wr event).Sound driver cap wr := by
  cases event
  case engine worker now e =>
    refine ⟨?_, fun w => (h.linked w).engineStep h.delivery (stopsEmpty_of_stopsIdle hs)⟩
    simp only [Collection.step, Collection.engineStep]
    split_ifs <;> exact h.delivery
  case forward worker =>
    refine ⟨?_, fun w => (h.linked w).forward h.delivery⟩
    simp only [Collection.step, Collection.forward]
    split_ifs
    case neg => exact h.delivery
    case pos =>
      split
      case h_2 => exact h.delivery.step (.worker worker .forward)
      case h_1 =>
        split
        case h_1 f _ _ =>
          exact (h.delivery.step (.worker worker (.flush f))).step (.worker worker .forward)
        case h_2 => exact (h.delivery.step (.worker worker .close)).step (.worker worker .forward)
        case h_3 => exact h.delivery
  case engineReturned worker message =>
    simp only [Collection.step]
    split
    case h_2 => exact h
    case h_1 outcome _ =>
      exact ⟨h.delivery.step (.worker worker (.finish (engineResult message outcome))),
        fun w => (h.linked w).delivery (.inr ⟨_, _, rfl⟩)⟩
  case delivery e =>
    simp only [Collection.step]
    split_ifs
    case pos => exact h
    case neg he =>
      exact ⟨h.delivery.step e, fun w => (h.linked w).delivery (.inl (by simpa using he))⟩

theorem after (h : s.Sound driver cap wr) {events : List CollectionEvent}
    (hs : Trace.Meets (Collection.step driver wr) (fun s e => s.stopsIdle e) s events) :
    (s.after driver wr events).Sound driver cap wr :=
  hs.invariant h fun _ _ h hs => h.step hs

end Sound

end Collection

end Controller
