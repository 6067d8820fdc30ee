import Handicap.Controller.Delivery
import Handicap.Store.Theorems.Metrics
import Handicap.Worker.Theorems.Forward

open Coordinator Store Worker Report

namespace Controller

-- The batches that are on their way to the database.
section Left

def uploaded : Upload → List MetricBatch
  | .metricBatch batch => [batch]
  | .runStatus ..      => []

def forwarded : Forwarder → List MetricBatch
  | .sending batch => [batch]
  | _              => []

-- The batches that the handler of a stream still has to insert the windows of.
def Handler.rowsLeft : Handler → List MetricBatch
  | .firstLoad batch | .insertBatch batch => [batch]
  | _                                     => []

def Handler.statsLeft : Handler → List MetricBatch
  | .firstLoad batch | .insertBatch batch | .insertStats batch => [batch]
  | _                                                          => []

-- The status of a run is the last message of its stream.
def StatusLast : List Upload → Prop
  | []                  => True
  | .metricBatch _ :: l => StatusLast l
  | .runStatus .. :: l  => l = []

def hasStatus (l : List Upload) : Bool :=
  l.any fun
    | .metricBatch _ => false
    | .runStatus ..  => true

variable {l : List Upload} {m : Upload} {n : ℕ}

theorem StatusLast.take (h : StatusLast l) : StatusLast (l.take n) := by
  induction l generalizing n
  case nil => simpa using h
  case cons m l ih =>
    cases n <;> cases m
    case succ.metricBatch => exact ih h
    case succ.runStatus => simp_all [StatusLast]
    all_goals trivial

theorem StatusLast.concat (h : hasStatus l = false) : StatusLast (l ++ [m]) := by
  induction l
  case nil => cases m <;> trivial
  case cons m' l ih => cases m' <;> simp_all [hasStatus, StatusLast]

-- Nothing is lost of a stream whose status arrives.
theorem StatusLast.take_eq (h : StatusLast l) (hs : hasStatus (l.take n)) : l.take n = l := by
  induction l generalizing n
  case nil => simp
  case cons m l ih =>
    cases n <;> cases m
    case succ.metricBatch => rw [List.take_succ_cons, ih h hs]
    case succ.runStatus => simp_all [StatusLast]
    all_goals simp [hasStatus] at hs

end Left

-- What has become of the batches of one worker: the worker, its stream, the handler of the stream,
-- whether the run knows of a terminal phase of the worker, and what the database holds of it.
structure Pipeline where
  execution : Execution
  inFlight  : List Upload
  broken    : Bool
  handler   : Handler
  recorded  : Bool
  rows      : List WindowWithHdr
  stats     : List MetricStats

namespace Pipeline

variable (statusText : StatusText) (worker : WorkerId) (p : Pipeline)

-- The batches that have not reached the handler yet.
def upstream : List MetricBatch :=
  p.inFlight.flatMap uploaded ++ forwarded p.execution.forwarder

-- The handler is at the status of the worker, or has been.
def Reported : Prop :=
  (∃ phase, p.handler = .recordPhase phase) ∨ p.recorded

-- Nothing of what the worker has produced can be lost.
def Safe : Prop :=
  p.broken = false ∨ hasStatus p.inFlight ∨ p.Reported

structure Tracked : Prop where
  owned    : ∀ b ∈ p.handler.statsLeft ++ p.upstream, b.workerId = worker
  waiting  : p.execution.stage = .waiting →
    p.execution.produced = [] ∧ p.inFlight = [] ∧ p.handler = .idle ∧ p.rows = [] ∧ p.stats = []
  stopped  : p.execution.stage ≠ .running → forwarded p.execution.forwarder = []
  last     : StatusLast p.inFlight
  sent     : hasStatus p.inFlight ∨ p.Reported → p.execution.stage = .reported
  drained  : p.Reported → p.inFlight = []
  finished : p.recorded → p.handler = .idle ∨ p.handler = .buildReport
  rows     : p.Safe → ∃ done, p.execution.produced = done ++ (p.handler.rowsLeft ++ p.upstream) ∧
    p.rows = insertBatch [] (done.flatMap (metricRows statusText))
  stats    : p.Safe → ∃ done, p.execution.produced = done ++ (p.handler.statsLeft ++ p.upstream) ∧
    p.stats = done.map (·.stats)

variable {statusText worker p} {m : Upload} {l : List Upload} {n : ℕ} {batch : MetricBatch}
  {phase : ℤ} {next : Handler} {recorded : Bool}

namespace Tracked

theorem disconnect (t : p.Tracked statusText worker) :
    { p with broken := true, inFlight := p.inFlight.take n }.Tracked statusText worker := by
  -- If the status arrives, or has arrived, so does everything before it.
  have ht (hs : hasStatus (p.inFlight.take n) ∨ p.Reported) : p.inFlight.take n = p.inFlight := by
    cases hs
    case inl hs => exact t.last.take_eq hs
    case inr hr => simp [t.drained hr]
  have hs (h : hasStatus (p.inFlight.take n) ∨ p.Reported) : hasStatus p.inFlight ∨ p.Reported :=
    h.imp_left fun h => ht (.inl h) ▸ h
  refine ⟨?owned, ?waiting, t.stopped, t.last.take, fun h => t.sent (hs h), ?drained, t.finished,
    ?rows, ?stats⟩
  case owned =>
    intro b hb
    refine t.owned b ?_
    simp only [upstream, List.mem_append, List.mem_flatMap] at hb ⊢
    exact hb.imp_right (·.imp_left fun ⟨m, hm, hb⟩ => ⟨m, List.mem_of_mem_take hm, hb⟩)
  case waiting =>
    intro hw
    have ⟨hp, hl, hh⟩ := t.waiting hw
    exact ⟨hp, by simp [hl], hh⟩
  case drained =>
    intro hr
    simp [t.drained hr]
  case rows =>
    intro h
    have h := h.resolve_left (by simp)
    have hr := t.rows (.inr (hs h))
    simp only [upstream, ht h] at hr ⊢
    exact hr
  case stats =>
    intro h
    have h := h.resolve_left (by simp)
    have hr := t.stats (.inr (hs h))
    simp only [upstream, ht h] at hr ⊢
    exact hr

theorem receive (t : p.Tracked statusText worker) (hi : p.handler = .idle)
    (hl : p.inFlight = m :: l) :
    { p with inFlight := l, handler := Delivery.received m }.Tracked statusText worker := by
  have hr : p.recorded = false := by
    by_contra h
    simpa [hl] using t.drained (.inr (by simpa using h))
  have hw : p.execution.stage ≠ .waiting := fun h => by simpa [hl] using (t.waiting h).right.left
  obtain ⟨owned, _, stopped, last, sent, _, _, rows, stats⟩ := t
  simp only [upstream, hi, hl, Safe, Reported, hr] at owned last sent rows stats
  cases m
  case metricBatch batch =>
    refine ⟨owned, fun h => absurd h hw, stopped, last, ?sent, ?drained, ?finished, ?rows, ?stats⟩
    case sent => simpa [Reported, Delivery.received, hr, hasStatus] using sent
    case drained => simp [Reported, Delivery.received, hr]
    case finished => simp [hr]
    case rows =>
      intro h
      exact rows (by simpa [Safe, Reported, hr, Delivery.received, hasStatus] using h)
    case stats =>
      intro h
      exact stats (by simpa [Safe, Reported, hr, Delivery.received, hasStatus] using h)
  case runStatus =>
    have last : l = [] := last
    subst last
    exact ⟨owned, fun h => absurd h hw, stopped, trivial, fun _ => sent (.inl rfl), fun _ => rfl,
      fun h => absurd h (by simp [hr]), fun _ => rows (.inr (.inl rfl)),
      fun _ => stats (.inr (.inl rfl))⟩

theorem not_recorded (t : p.Tracked statusText worker) (h : p.handler.statsLeft ≠ []) :
    p.recorded = false := by
  by_contra hr
  cases t.finished (by simpa using hr)
  case inl hi => simp [hi, Handler.statsLeft] at h
  case inr hi => simp [hi, Handler.statsLeft] at h

theorem firstLoad (t : p.Tracked statusText worker) (h : p.handler = .firstLoad batch) :
    { p with handler := .insertBatch batch }.Tracked statusText worker := by
  have hr := t.not_recorded (by simp [h, Handler.statsLeft])
  obtain ⟨owned, waiting, stopped, last, sent, drained, _, rows, stats⟩ := t
  simp only [upstream, h, Safe, Reported, hr] at owned waiting sent drained rows stats
  refine ⟨owned, ?waiting, stopped, last, ?sent, ?drained, ?finished, ?rows, ?stats⟩
  case waiting => exact fun hw => absurd (waiting hw).right.right (by simp)
  case sent => simpa [Reported, hr] using sent
  case drained => simp [Reported, hr]
  case finished => simp [hr]
  case rows => simpa [Safe, Reported, hr, upstream, Handler.rowsLeft] using rows
  case stats => simpa [Safe, Reported, hr, upstream, Handler.statsLeft] using stats

theorem insertBatch (t : p.Tracked statusText worker) (h : p.handler = .insertBatch batch) :
    { p with
      handler := .insertStats batch
      rows    := Store.insertBatch p.rows (metricRows statusText batch) }.Tracked
        statusText worker := by
  have hr := t.not_recorded (by simp [h, Handler.statsLeft])
  obtain ⟨owned, waiting, stopped, last, sent, drained, _, rows, stats⟩ := t
  simp only [upstream, h, Safe, Reported, hr] at owned waiting sent drained rows stats
  refine ⟨owned, ?waiting, stopped, last, ?sent, ?drained, ?finished, ?rows, ?stats⟩
  case waiting => exact fun hw => absurd (waiting hw).right.right (by simp)
  case sent => simpa [Reported, hr] using sent
  case drained => simp [Reported, hr]
  case finished => simp [hr]
  case stats => simpa [Safe, Reported, hr, upstream, Handler.statsLeft] using stats
  case rows =>
    intro hs
    have ⟨done, hp, he⟩ := rows (by simpa [Safe, Reported, hr] using hs)
    refine ⟨done ++ [batch], ?_, ?_⟩
    · simpa [Handler.rowsLeft, upstream] using hp
    · rw [he, List.flatMap_append, insertBatch_append, List.flatMap_singleton]

theorem insertStats (t : p.Tracked statusText worker) (h : p.handler = .insertStats batch) :
    { p with handler := .idle, stats := p.stats ++ [batch.stats] }.Tracked statusText worker := by
  have hr := t.not_recorded (by simp [h, Handler.statsLeft])
  obtain ⟨owned, waiting, stopped, last, sent, drained, _, rows, stats⟩ := t
  simp only [upstream, h, Safe, Reported, hr] at owned waiting sent drained rows stats
  refine ⟨?owned, ?waiting, stopped, last, ?sent, ?drained, ?finished, ?rows, ?stats⟩
  case owned => exact fun b hb => owned b (List.mem_cons_of_mem _ hb)
  case waiting => exact fun hw => absurd (waiting hw).right.right (by simp)
  case sent => simpa [Reported, hr] using sent
  case drained => simp [Reported, hr]
  case finished => simp [hr]
  case rows => simpa [Safe, Reported, hr, upstream, Handler.rowsLeft] using rows
  case stats =>
    intro hs
    have ⟨done, hp, he⟩ := stats (by simpa [Safe, Reported, hr] using hs)
    refine ⟨done ++ [batch], ?_, ?_⟩
    · simpa [Handler.statsLeft, upstream] using hp
    · rw [he, List.map_append, List.map_singleton]

-- The phase of the worker may or may not be kept by the run.
theorem recordPhase (t : p.Tracked statusText worker) (h : p.handler = .recordPhase phase)
    (hn : next = .idle ∨ next = .buildReport) :
    { p with handler := next, recorded }.Tracked statusText worker := by
  have hr : p.Reported := .inl ⟨phase, h⟩
  have hl := t.drained hr
  have hs := t.sent (.inr hr)
  have hrows := t.rows (.inr (.inr hr))
  have hstats := t.stats (.inr (.inr hr))
  have howned := t.owned
  simp only [upstream, h, Handler.rowsLeft, Handler.statsLeft] at howned hrows hstats
  have hleft : next.rowsLeft = [] ∧ next.statsLeft = [] := by
    cases hn
    case inl he => exact he ▸ ⟨rfl, rfl⟩
    case inr he => exact he ▸ ⟨rfl, rfl⟩
  refine ⟨?owned, ?waiting, t.stopped, t.last, fun _ => hs, fun _ => hl, fun _ => hn, fun _ => ?rows,
    fun _ => ?stats⟩
  case owned => simpa [hleft.right, upstream] using howned
  case waiting => exact fun hw => absurd (hw.symm.trans hs) (by simp)
  case rows => simpa [hleft.left, upstream] using hrows
  case stats => simpa [hleft.right, upstream] using hstats

theorem buildReport (t : p.Tracked statusText worker) (h : p.handler = .buildReport) :
    { p with handler := .idle }.Tracked statusText worker := by
  obtain ⟨owned, waiting, stopped, last, sent, drained, _, rows, stats⟩ := t
  simp only [upstream, h, Safe, Reported] at owned waiting sent drained rows stats
  refine ⟨owned, ?waiting, stopped, last, ?sent, ?drained, fun _ => .inl rfl, ?rows, ?stats⟩
  case waiting => exact fun hw => absurd (waiting hw).right.right (by simp)
  case sent => simpa [Reported] using sent
  case drained => simpa [Reported] using drained
  case rows => simpa [Safe, Reported, upstream, Handler.rowsLeft] using rows
  case stats => simpa [Safe, Reported, upstream, Handler.statsLeft] using stats

-- A worker that runs has not sent its status.
theorem unsent (t : p.Tracked statusText worker) (h : p.execution.stage ≠ .reported) :
    hasStatus p.inFlight = false ∧ ¬p.Reported := by
  refine ⟨?_, fun hr => h (t.sent (.inr hr))⟩
  by_contra hs
  exact h (t.sent (.inl (by simpa using hs)))

-- The worker goes on, and may produce batches that are not sent yet.
theorem advance {x : Execution} (t : p.Tracked statusText worker) (new : List MetricBatch)
    (hs : p.execution.stage ≠ .reported) (hw : x.stage ≠ .waiting)
    (hx : x.stage ≠ .running → forwarded x.forwarder = [])
    (hp : x.produced = p.execution.produced ++ new)
    (hf : forwarded x.forwarder = forwarded p.execution.forwarder ++ new)
    (ho : ∀ b ∈ new, b.workerId = worker) :
    { p with execution := x }.Tracked statusText worker := by
  have ⟨hl, hn⟩ := t.unsent hs
  refine ⟨?owned, fun h => absurd h hw, hx, t.last, ?sent, t.drained, t.finished, ?rows, ?stats⟩
  case owned =>
    intro b hb
    simp only [upstream, hf, ← List.append_assoc] at hb
    cases List.mem_append.mp hb
    case inl hb => exact t.owned b (by simpa only [upstream, ← List.append_assoc] using hb)
    case inr hb => exact ho b hb
  case sent => exact fun h => absurd (h.resolve_left (by simp [hl])) hn
  case rows =>
    intro h
    have ⟨done, hd, he⟩ := t.rows h
    exact ⟨done, by simp only [hp, hd, upstream, hf, List.append_assoc], he⟩
  case stats =>
    intro h
    have ⟨done, hd, he⟩ := t.stats h
    exact ⟨done, by simp only [hp, hd, upstream, hf, List.append_assoc], he⟩

-- The worker sends its status when nothing else is left to be sent.
theorem status {phase : Pb.Phase} {message : String} (t : p.Tracked statusText worker)
    (hs : p.execution.stage ≠ .reported) (hf : forwarded p.execution.forwarder = []) :
    { p with
      execution := { p.execution with stage := .reported }
      inFlight  := p.inFlight ++ Execution.upload (!p.broken) (.runStatus phase message) }.Tracked
        statusText worker := by
  have ⟨hl, hn⟩ := t.unsent hs
  have hu : (p.inFlight ++ Execution.upload (!p.broken) (.runStatus phase message)).flatMap uploaded =
      p.inFlight.flatMap uploaded := by
    cases hb : p.broken <;> simp [Execution.upload, uploaded]
  have hsafe (h : p.broken = false ∨ hasStatus
        (p.inFlight ++ Execution.upload (!p.broken) (.runStatus phase message)) ∨ p.Reported) :
      p.Safe := by
    cases hb : p.broken
    case false => exact .inl hb
    case true => simpa [Execution.upload, hb, Safe] using h
  refine ⟨?owned, nofun, fun _ => hf, ?last, fun _ => rfl, fun h => absurd h hn, t.finished, ?rows,
    ?stats⟩
  case owned =>
    simpa only [upstream, hu] using t.owned
  case last =>
    cases hb : p.broken
    case false => exact StatusLast.concat hl
    case true => simpa [Execution.upload] using t.last
  case rows =>
    intro h
    simpa only [upstream, hu] using t.rows (hsafe h)
  case stats =>
    intro h
    simpa only [upstream, hu] using t.stats (hsafe h)

-- A batch is put into the stream, or lost if the stream is broken.
theorem send {forwarder : Forwarder} (t : p.Tracked statusText worker)
    (hs : p.execution.stage = .running) (hf : p.execution.forwarder = .sending batch)
    (hn : forwarded forwarder = []) :
    { p with
      execution := { p.execution with forwarder }
      inFlight  := p.inFlight ++ Execution.upload (!p.broken) (.metricBatch batch) }.Tracked
        statusText worker := by
  have ⟨hl, hr⟩ := t.unsent (by simp [hs])
  have hl' : hasStatus (p.inFlight ++ Execution.upload (!p.broken) (.metricBatch batch)) = false := by
    cases hb : p.broken <;> simp_all [Execution.upload, hasStatus]
  refine ⟨?owned, ?waiting, fun _ => hn, ?last, ?sent, fun h => absurd h hr, t.finished, ?rows,
    ?stats⟩
  case owned =>
    intro b hb
    refine t.owned b ?_
    cases hp : p.broken <;> simp_all [upstream, Execution.upload, uploaded, forwarded]
    case true => exact hb.imp_right .inl
  case waiting => exact fun h => absurd (hs.symm.trans h) (by simp)
  case last =>
    cases hb : p.broken
    case false => exact StatusLast.concat hl
    case true => simpa [Execution.upload] using t.last
  case sent => exact fun h => absurd (h.resolve_left (by simp [hl'])) hr
  case rows =>
    intro h
    have hb : p.broken = false := h.resolve_right fun h => hr (h.resolve_left (by simp [hl']))
    have ht := t.rows (.inl hb)
    have hf : forwarded p.execution.forwarder = [batch] := by rw [hf, forwarded]
    simpa [upstream, hf, hb, Execution.upload, uploaded, hn] using ht
  case stats =>
    intro h
    have hb : p.broken = false := h.resolve_right fun h => hr (h.resolve_left (by simp [hl']))
    have ht := t.stats (.inl hb)
    have hf : forwarded p.execution.forwarder = [batch] := by rw [hf, forwarded]
    simpa [upstream, hf, hb, Execution.upload, uploaded, hn] using ht

theorem execution {x : Execution} {sent : List Upload} (t : p.Tracked statusText worker)
    (h : p.execution.Moves worker (!p.broken) x sent) :
    { p with execution := x, inFlight := p.inFlight ++ sent }.Tracked statusText worker := by
  have hnil {x : Execution} (h : { p with execution := x }.Tracked statusText worker) :
      { p with execution := x, inFlight := p.inFlight ++ [] }.Tracked statusText worker := by
    simpa using h
  cases h
  case stay => exact hnil t
  case start stage hs =>
    have hf : forwarded p.execution.forwarder = [] :=
      t.stopped (by rcases hs with ⟨hs, _⟩ | ⟨hs, _⟩ <;> simp [hs])
    refine hnil (t.advance [] ?_ ?_ (fun _ => hf) (by simp) (by simp) (by simp))
    all_goals rcases hs with ⟨hs, rfl⟩ | ⟨hs, rfl⟩ <;> simp [hs]
  case abandon phase message hs =>
    exact t.status (by simp [hs]) (t.stopped (by simp [hs]))
  case engine flushes closed result hs =>
    exact hnil (t.advance [] (by simp [hs]) (by simp [hs])
      (fun h => absurd hs h) (by simp) (by simp) (by simp))
  case take flushes batch hs hf hw =>
    exact hnil (t.advance [batch] (by simp [hs]) (by simp [hs])
      (fun h => absurd hs h) rfl (by simp [forwarded, hf]) (by simpa using hw))
  case last hs hf =>
    exact hnil (t.advance [] (by simp [hs]) (by simp [hs])
      (fun h => absurd hs h) (by simp) (by simp [forwarded, hf]) (by simp))
  case send batch hs hf => exact t.send hs hf (by cases p.broken <;> rfl)
  case report phase message hs hf => exact t.status (by simp [hs]) (by simp [hf, forwarded])

end Tracked

end Pipeline

end Controller
