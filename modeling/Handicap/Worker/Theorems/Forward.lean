import Handicap.Worker.Forward

open Engine

namespace Worker.Execution

-- Everything that an event can do to an execution.
inductive Moves (worker : String) (connected : Bool) (x : Execution) :
    Execution → List Upload → Prop
  | stay : Moves worker connected x x []
  | start (stage : Stage) :
    x.stage = .waiting ∧ stage = .loading ∨ x.stage = .loading ∧ stage = .running →
    Moves worker connected x { x with stage } []
  | abandon (phase : Pb.Phase) (message : String) :
    x.stage = .loading →
    Moves worker connected x { x with stage := .reported }
      (upload connected (.runStatus phase message))
  | engine (flushes : List MetricFlush) (closed : Bool) (result : Option EngineResult) :
    x.stage = .running → Moves worker connected x { x with flushes, closed, result } []
  | take (flushes : List MetricFlush) (batch : MetricBatch) :
    x.stage = .running → x.forwarder = .receiving → batch.workerId = worker →
    Moves worker connected x
      { x with flushes, forwarder := .sending batch, produced := x.produced ++ [batch] } []
  | last :
    x.stage = .running → x.forwarder = .receiving →
    Moves worker connected x { x with forwarder := .ended } []
  | send (batch : MetricBatch) :
    x.stage = .running → x.forwarder = .sending batch →
    Moves worker connected x { x with forwarder := if connected then .receiving else .ended }
      (upload connected (.metricBatch batch))
  | report (phase : Pb.Phase) (message : String) :
    x.stage = .running → x.forwarder = .ended →
    Moves worker connected x { x with stage := .reported }
      (upload connected (.runStatus phase message))

variable {serialize : SerializeHistogram} {runId worker : String} {connected : Bool}
  {x : Execution} {e : WorkerEvent} {f : MetricFlush} {batch : MetricBatch}

theorem metricBatch_workerId (h : metricBatch serialize runId worker f = some batch) :
    batch.workerId = worker := by
  simp only [metricBatch] at h
  split_ifs at h
  cases h
  rfl

theorem forward_moves (hs : x.stage = .running) :
    Moves worker connected x (x.forward serialize runId worker connected).1
      (x.forward serialize runId worker connected).2 := by
  unfold forward
  split
  case h_1 hf =>
    split
    case h_1 =>
      split_ifs
      case pos => exact .last hs hf
      case neg => exact .stay
    case h_2 =>
      split
      case h_1 => exact .engine _ _ _ hs
      case h_2 hb => exact .take _ _ hs hf (metricBatch_workerId hb)
  case h_2 hf => exact .send _ hs hf
  case h_3 => exact .stay

theorem report_moves (hs : x.stage = .running) :
    Moves worker connected x (x.report connected).1 (x.report connected).2 := by
  unfold report
  split
  case h_1 hf _ => exact .report _ _ hs hf
  case h_2 => exact .stay

theorem step_moves :
    Moves worker connected x (x.step serialize runId worker connected e).1
      (x.step serialize runId worker connected e).2 := by
  have hif {p : Prop} [Decidable p] {y : Execution × List Upload}
      (h : p → Moves worker connected x y.1 y.2) :
      Moves worker connected x (if p then y else (x, [])).1 (if p then y else (x, [])).2 := by
    split_ifs
    case pos hp => exact h hp
    case neg => exact .stay
  cases e
  case assigned => exact hif fun h => .start _ (.inl ⟨h, rfl⟩)
  case loaded => exact hif fun h => .start _ (.inr ⟨h, rfl⟩)
  case loadFailed => exact hif fun h => .abandon _ _ h
  case flush => exact hif fun h => .engine _ _ _ h.left
  case close => exact hif fun h => .engine _ _ _ h
  case finish => exact hif fun h => .engine _ _ _ h.left
  case forward => exact hif forward_moves
  case report => exact hif report_moves

-- A worker puts its name on everything that it produces.
theorem Moves.owned {x' : Execution} {sent : List Upload} (m : Moves worker connected x x' sent)
    (h : ∀ b ∈ x.produced, b.workerId = worker) : ∀ b ∈ x'.produced, b.workerId = worker := by
  cases m
  case take hw =>
    intro b hb
    cases List.mem_append.mp hb
    case inl hb => exact h b hb
    case inr hb => exact List.mem_singleton.mp hb ▸ hw
  all_goals exact h

-- Nothing happens before the assignment.
theorem step_waiting (h : x.stage = .waiting) (he : e ≠ .assigned) :
    (x.step serialize runId worker connected e).1 = x := by
  cases e <;> simp_all [step]

end Worker.Execution
