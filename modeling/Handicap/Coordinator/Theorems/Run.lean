import Handicap.Coordinator.Run

open Store

namespace Coordinator.RunWorkers

variable {rw rw' : RunWorkers} {worker w : WorkerId} {tx : Tx} {phase : ℤ}

section Fields

@[simp]
theorem finish_terminal : rw.finish.terminal = true :=
  rfl

@[simp]
theorem finish_workers : rw.finish.workers = rw.workers :=
  rfl

@[simp]
theorem finish_expected : rw.finish.expected = rw.expected :=
  rfl

@[simp]
theorem setPhase_terminal (p : Pb.Phase) : (rw.setPhase worker p).terminal = rw.terminal := by
  rw [setPhase]
  split <;> rfl

@[simp]
theorem setPhase_expected (p : Pb.Phase) : (rw.setPhase worker p).expected = rw.expected := by
  rw [setPhase]
  split <;> rfl

@[simp]
theorem setPhase_nextShard (p : Pb.Phase) : (rw.setPhase worker p).nextShard = rw.nextShard := by
  rw [setPhase]
  split <;> rfl

theorem lookup_setPhase (p : Pb.Phase) :
    (rw.setPhase worker p).workers.lookup w =
      if w = worker then (rw.workers.lookup w).map ({ · with phase := p })
      else rw.workers.lookup w := by
  rw [setPhase]
  split
  case h_1 e he =>
    split
    case isTrue h => subst h; rw [AList.lookup_insert, he, Option.map_some]
    case isFalse h => exact AList.lookup_insert_ne h
  case h_2 he =>
    split
    case isTrue h => subst h; rw [he, Option.map_none]
    case isFalse h => rfl

theorem setPhase_keys_perm (p : Pb.Phase) :
    (rw.setPhase worker p).workers.keys.Perm rw.workers.keys := by
  rw [setPhase]
  split
  case h_1 e he =>
    have hm : worker ∈ rw.workers.keys := AList.lookup_isSome.mp (he ▸ rfl)
    rw [AList.keys_insert]
    exact (List.perm_cons_erase hm).symm
  case h_2 => rfl

theorem mem_txs : tx ∈ rw.txs ↔ ∃ w e, rw.workers.lookup w = some e ∧ e.tx = tx := by
  simp only [txs, List.mem_map, AList.mem_lookup_iff.symm, Option.mem_def, Sigma.exists]

theorem mem_siblings :
    tx ∈ rw.siblings worker ↔ ∃ w e, w ≠ worker ∧ rw.workers.lookup w = some e ∧ e.tx = tx := by
  simp only [siblings, List.mem_map, List.mem_filter, AList.mem_lookup_iff.symm, Option.mem_def,
    Sigma.exists, decide_eq_true_eq]
  grind

theorem allCompleted_iff :
    rw.allCompleted ↔ ∀ w e, rw.workers.lookup w = some e → e.phase = .completed := by
  simp only [allCompleted, List.all_eq_true, Sigma.forall, ← AList.mem_lookup_iff, Option.mem_def,
    decide_eq_true_eq]

theorem phaseOf_completed (h : phaseOf phase = .completed) :
    phase = Pb.Phase.completed.toInt := by
  rw [phaseOf] at h
  split_ifs at h with hc
  exact hc

end Fields

-- Everything that a call can do to a run.
section Cases

inductive Registers (rw : RunWorkers) (worker : WorkerId) (tx : Tx) :
    RegisterOutcome → RunWorkers → Prop
  | rejected :
    (rw.terminal ∨ rw.workers.lookup worker = none ∧ rw.expected ≤ rw.nextShard) →
    Registers rw worker tx .reject rw
  | resent {e : WorkerEntry} :
    rw.terminal = false → rw.workers.lookup worker = some e →
    Registers rw worker tx (.resend e.shardIndex rw.expected e.vuOffset e.vuCount) rw
  | admitted (h : rw.nextShard < rw.expected) :
    rw.terminal = false → rw.workers.lookup worker = none →
    Registers rw worker tx
      (.assigned rw.nextShard rw.expected (rw.slot rw.nextShard h).1 (rw.slot rw.nextShard h).2
        rw.workers.keys.isEmpty)
      (rw.addWorker worker tx h)

theorem registers {o : RegisterOutcome} (h : rw.register worker tx = (o, rw')) :
    Registers rw worker tx o rw' := by
  rw [register] at h
  split at h
  case isTrue ht =>
    cases h
    exact .rejected (.inl ht)
  case isFalse ht =>
    have ht : rw.terminal = false := by simpa using ht
    split at h
    case h_1 e he =>
      cases h
      exact .resent ht he
    case h_2 he =>
      split at h
      case isTrue hn =>
        cases h
        exact .admitted hn ht he
      case isFalse hn =>
        cases h
        exact .rejected (.inr ⟨he, not_lt.mp hn⟩)

theorem Registers.preserves_terminal {o : RegisterOutcome} (r : Registers rw worker tx o rw') :
    rw'.terminal = rw.terminal := by
  cases r <;> rfl

-- All expected workers have registered, and each of them has reported that it completed.
def Complete (rw : RunWorkers) : Prop :=
  rw.allCompleted ∧ rw.workers.keys.length = rw.expected

inductive Records (rw : RunWorkers) (worker : WorkerId) (phase : ℤ) : Finalize → RunWorkers → Prop
  | kept :
    (rw.terminal ∨ phase ≠ Pb.Phase.failed.toInt ∧ phase ≠ Pb.Phase.aborted.toInt ∧
      ¬(phase = Pb.Phase.completed.toInt ∧ (rw.setPhase worker (phaseOf phase)).Complete)) →
    Records rw worker phase .none (rw.setPhase worker (phaseOf phase))
  | failed :
    rw.terminal = false → phase = Pb.Phase.failed.toInt →
    Records rw worker phase (.failed ((rw.setPhase worker (phaseOf phase)).siblings worker))
      (rw.setPhase worker (phaseOf phase)).finish
  | aborted :
    rw.terminal = false → phase = Pb.Phase.aborted.toInt →
    Records rw worker phase .aborted (rw.setPhase worker (phaseOf phase)).finish
  | completed :
    rw.terminal = false → phase = Pb.Phase.completed.toInt →
    (rw.setPhase worker (phaseOf phase)).Complete →
    Records rw worker phase .completed (rw.setPhase worker (phaseOf phase)).finish

theorem records {f : Finalize} (h : rw.recordPhase worker phase = (f, rw')) :
    Records rw worker phase f rw' := by
  simp only [recordPhase, setPhase_terminal] at h
  split_ifs at h with ht hf ha hc
  all_goals cases h
  case pos => exact .kept (.inl ht)
  case pos => exact .failed (by simpa using ht) hf
  case pos => exact .aborted (by simpa using ht) ha
  case pos => exact .completed (by simpa using ht) hc.left ⟨hc.right.left, hc.right.right⟩
  case neg => exact .kept (.inr ⟨hf, ha, hc⟩)

inductive Disconnects (rw : RunWorkers) (worker : WorkerId) : Option (List Tx) → RunWorkers → Prop
  | harmless :
    (rw.terminal ∨ ∀ e, rw.workers.lookup worker = some e → e.phase.isTerminal) →
    Disconnects rw worker none rw
  | lost {e : WorkerEntry} :
    rw.terminal = false → rw.workers.lookup worker = some e → e.phase.isTerminal = false →
    Disconnects rw worker (some { rw with workers := rw.workers.erase worker }.txs)
      { rw with workers := rw.workers.erase worker }.finish

theorem disconnects {o : Option (List Tx)} (h : rw.workerDisconnected worker = (o, rw')) :
    Disconnects rw worker o rw' := by
  simp only [workerDisconnected] at h
  split_ifs at h with hc
  all_goals cases h
  case pos =>
    refine .harmless (hc.imp_right fun hc e he => ?_)
    simpa [he] using hc
  case neg =>
    rw [not_or] at hc
    cases he : rw.workers.lookup worker
    case none => simp [he] at hc
    case some e => exact .lost (by simpa using hc.left) he (by simpa [he] using hc.right)

inductive Hangs (rw : RunWorkers) : Option (List Tx) → RunWorkers → Prop
  | ended : rw.terminal → Hangs rw none rw
  | hung : rw.terminal = false → Hangs rw (some rw.txs) rw.finish

theorem hangs {o : Option (List Tx)} (h : rw.failRunHung = (o, rw')) : Hangs rw o rw' := by
  rw [failRunHung] at h
  split at h
  case isTrue ht =>
    cases h
    exact .ended ht
  case isFalse ht =>
    cases h
    exact .hung (by simpa using ht)

end Cases

section AddWorker

variable {h : rw.nextShard < rw.expected}

@[simp]
theorem addWorker_terminal : (rw.addWorker worker tx h).terminal = rw.terminal :=
  rfl

@[simp]
theorem addWorker_expected : (rw.addWorker worker tx h).expected = rw.expected :=
  rfl

@[simp]
theorem addWorker_nextShard : (rw.addWorker worker tx h).nextShard = rw.nextShard + 1 :=
  rfl

theorem lookup_addWorker :
    (rw.addWorker worker tx h).workers.lookup w =
      if w = worker then
        some ⟨rw.nextShard, (rw.slot rw.nextShard h).1, (rw.slot rw.nextShard h).2, tx, .started⟩
      else rw.workers.lookup w := by
  change (rw.workers.insert worker _).lookup w = _
  split
  case isTrue hw => subst hw; exact AList.lookup_insert _
  case isFalse hw => exact AList.lookup_insert_ne hw

theorem addWorker_keys (hw : rw.workers.lookup worker = none) :
    (rw.addWorker worker tx h).workers.keys = worker :: rw.workers.keys := by
  have hn : worker ∉ rw.workers.keys := AList.lookup_eq_none.mp hw
  exact (AList.keys_insert ..).trans (by rw [List.erase_of_not_mem hn])

end AddWorker

end Coordinator.RunWorkers
