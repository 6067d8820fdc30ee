import Handicap.Coordinator.Theorems.Calls

open Store Pb Trace

namespace Coordinator.Managed

variable {run rw : RunWorkers} {m : Managed} {pre : List Request} {r : Request} {worker : WorkerId}
variable {tx : Tx} {c : Call}

-- The worker has neither reported a terminal phase nor lost its stream.
def Live (worker : WorkerId) (requests : List Request) : Prop :=
  (∀ phase, .call (.recordPhase worker phase) ∈ requests → (phaseOf phase).isTerminal = false) ∧
    .call (.workerDisconnected worker) ∉ requests

-- A user abort has found the channel among those of the run.
def Reached (run : RunWorkers) (requests : List Request) (tx : Tx) : Prop :=
  ∃ pre rw, pre ++ [.abort] <+: requests ∧ (after run pre).run = some rw ∧ tx ∈ rw.txs

def registrationOf (worker : WorkerId) : Request → Option Tx
  | .call (.register w tx) => if w = worker then some tx else none
  | _                      => none

-- The stream over which a worker has registered last, and over which it runs.
def streamOf (worker : WorkerId) (requests : List Request) : Option Tx :=
  (requests.filterMap (registrationOf worker)).getLast?

-- If a request ends the run other than as completed, then all its live workers have been sent
-- AbortRun.
def Stops (run : RunWorkers) (pre : List Request) (r : Request) : Prop :=
  ∀ rw x, (after run pre).run = some rw → (after run pre).ending = none →
    (after run (pre ++ [r])).ending = some x → x ≠ .completed →
    ∀ worker e tx, rw.workers.lookup worker = some e → Live worker (pre ++ [r]) →
      streamOf worker pre = some tx → tx ∈ (after run (pre ++ [r])).aborts

-- The request tears the run down, because of a worker if there is one.
inductive Tears (rw : RunWorkers) : Request → Option WorkerId → Prop
  | failed {w phase} (h : phase = Phase.failed.toInt) :
    Tears rw (.call (.recordPhase w phase)) (some w)
  | lost {w e} (hw : rw.workers.lookup w = some e) (hp : e.phase.isTerminal = false) :
    Tears rw (.call (.workerDisconnected w)) (some w)
  | hung : Tears rw (.call .failRunHung) none
  | dispatch : Tears rw .cancelDispatchFailed none

-- A worker reports that it aborted, while the run is not over, only after a user abort has reached
-- all other live workers. The run is torn down only while all other live workers run over a stream
-- that the run has for one of them, unless a user abort has reached them.
structure Answers (run : RunWorkers) (pre : List Request) (r : Request) : Prop where
  aborted : ∀ rw w₀, (after run pre).run = some rw → rw.terminal = false →
    r = .call (.recordPhase w₀ Phase.aborted.toInt) →
    ∀ w e tx, rw.workers.lookup w = some e → Live w (pre ++ [r]) → streamOf w pre = some tx →
      Reached run pre tx
  torn    : ∀ rw o, (after run pre).run = some rw → rw.terminal = false → Tears rw r o →
    ∀ w e tx, rw.workers.lookup w = some e → Live w (pre ++ [r]) → streamOf w pre = some tx →
      Reached run pre tx ∨
        ∃ w' e', o ≠ some w' ∧ rw.workers.lookup w' = some e' ∧ e'.tx = tx

@[simp]
theorem after_nil : after run [] = new run :=
  rfl

@[simp]
theorem after_concat : after run (pre ++ [r]) = (after run pre).step r :=
  run_concat

-- The run is over exactly if an ending has been chosen.
theorem ending_iff (h : run.terminal = false) (hr : (after run pre).run = some rw) :
    (after run pre).ending.isSome ↔ rw.terminal := by
  induction pre using List.reverseRecOn generalizing rw
  case nil =>
    cases hr
    simp [new, h]
  case append_singleton pre r ih =>
    rw [after_concat] at hr ⊢
    rw [step] at hr ⊢
    cases hm : (after run pre).run
    case none => simp [hm] at hr
    case some rw₀ =>
      have ih := ih hm
      cases r
      case cancelDispatchFailed => simp [hm] at hr
      case abort => simp_all
      case call c =>
        have hs := rw₀.exec_step c
        simp only [hm, Option.some.injEq] at hr ⊢
        subst hr
        have he := hs.ending_isSome
        have hp := hs.preserves_terminal
        cases ht : rw₀.terminal <;> simp_all

theorem reached_concat :
    Reached run (pre ++ [r]) tx ↔
      Reached run pre tx ∨ r = .abort ∧ ∃ rw, (after run pre).run = some rw ∧ tx ∈ rw.txs := by
  simp only [Reached, List.prefix_concat_iff]
  constructor
  · rintro ⟨pre', rw, hp | hp, hr, ht⟩
    · obtain ⟨rfl, h⟩ := List.append_inj' hp rfl
      exact .inr ⟨by simpa using h.symm, rw, hr, ht⟩
    · exact .inl ⟨pre', rw, hp, hr, ht⟩
  · rintro (⟨pre', rw, hp, hr, ht⟩ | ⟨rfl, rw, hr, ht⟩)
    · exact ⟨pre', rw, .inr hp, hr, ht⟩
    · exact ⟨pre, rw, .inl rfl, hr, ht⟩

theorem aborts_of_ending {e : Effect} (h : e.ending = none) : e.aborts = [] := by
  cases e
  case registered => rfl
  case recorded f => cases f <;> first | rfl | cases h
  case tornDown o => cases o <;> first | rfl | cases h

-- As long as the run is not over, AbortRun has been sent by user aborts only.
theorem mem_aborts (h : (after run pre).ending = none) :
    tx ∈ (after run pre).aborts ↔ Reached run pre tx := by
  induction pre using List.reverseRecOn
  case nil => simp [new, Reached]
  case append_singleton pre r ih =>
    rw [after_concat] at h ⊢
    rw [reached_concat]
    rw [step] at h ⊢
    cases hm : (after run pre).run
    case none =>
      simp only [hm] at h ⊢
      simp [ih h]
    case some rw =>
      simp only [hm] at h ⊢
      cases r
      case cancelDispatchFailed => simp at h
      case abort => simp_all
      case call c =>
        simp only [Option.orElse_eq_none] at h
        simp [ih h.left, aborts_of_ending h.right]

-- All channels of the run are told, except for that of the worker because of which it is torn down.
theorem Tears.step {o : Option WorkerId} (t : Tears rw r o) (ht : rw.terminal = false)
    (hr : m.run = some rw) (hn : m.ending = none) : (m.step r).ending = some .failed ∧
    ∀ tx, tx ∈ (m.step r).aborts ↔ tx ∈ m.aborts ∨
      ∃ w e, o ≠ some w ∧ rw.workers.lookup w = some e ∧ e.tx = tx := by
  simp only [Managed.step, hr]
  cases t
  case failed w phase h =>
    subst h
    have hf : rw.recordPhase w Phase.failed.toInt =
        (.failed ((rw.setPhase w .failed).siblings w), (rw.setPhase w .failed).finish) := by
      simp [RunWorkers.recordPhase, ht, phaseOf, Phase.toInt]
    simp only [RunWorkers.exec, hf, Prod.map, Effect.ending, Effect.aborts, hn, List.mem_append,
      RunWorkers.mem_siblings]
    refine ⟨rfl, fun tx => or_congr_right (exists_congr fun w' => exists_congr fun e => ?_)⟩
    by_cases hw : w' = w
    case pos => simp [hw]
    case neg => simp [hw, RunWorkers.lookup_setPhase, Ne.symm hw]
  case lost w e hw hp =>
    have hf : rw.workerDisconnected w = (some { rw with workers := rw.workers.erase w }.txs,
        { rw with workers := rw.workers.erase w }.finish) := by
      simp [RunWorkers.workerDisconnected, ht, hw, hp]
    simp only [RunWorkers.exec, hf, Prod.map, Effect.ending, Effect.aborts, hn, List.mem_append,
      RunWorkers.mem_txs]
    refine ⟨rfl, fun tx => or_congr_right (exists_congr fun w' => exists_congr fun e => ?_)⟩
    by_cases hw : w' = w
    case pos =>
      subst hw
      simp [AList.lookup_erase]
    case neg => simp [AList.lookup_erase_ne hw, Ne.symm hw]
  case hung =>
    have hf : rw.failRunHung = (some rw.txs, rw.finish) := by simp [RunWorkers.failRunHung, ht]
    simp only [RunWorkers.exec, hf, Prod.map, Effect.ending, Effect.aborts, hn, List.mem_append,
      RunWorkers.mem_txs]
    simp
  case dispatch =>
    simp only [hn, List.mem_append, RunWorkers.mem_txs]
    simp

-- The report of an aborted worker ends the run without telling anybody.
theorem step_aborted {w : WorkerId} (ht : rw.terminal = false) (hr : m.run = some rw)
    (hn : m.ending = none) :
    (m.step (.call (.recordPhase w Phase.aborted.toInt))).ending = some .aborted ∧
      (m.step (.call (.recordPhase w Phase.aborted.toInt))).aborts = m.aborts := by
  have ha : rw.recordPhase w Phase.aborted.toInt =
      (.aborted, (rw.setPhase w (phaseOf Phase.aborted.toInt)).finish) := by
    simp [RunWorkers.recordPhase, ht, Phase.toInt]
  simp [Managed.step, hr, hn, RunWorkers.exec, ha, Effect.ending, Effect.aborts]

-- There is no other way to end a run than these, but for its completion.
theorem tears_of_ending {x : Ending} (hr : m.run = some rw) (hn : m.ending = none)
    (hx : (m.step r).ending = some x) (hc : x ≠ .completed) :
    (∃ o, Tears rw r o) ∨ ∃ w, r = .call (.recordPhase w Phase.aborted.toInt) := by
  simp only [Managed.step, hr] at hx
  cases r
  case abort => simp [hn] at hx
  case cancelDispatchFailed => exact .inl ⟨_, .dispatch⟩
  case call c =>
    replace hx : (rw.exec c).1.ending = some x := by simpa [hn] using hx
    have s := rw.exec_step c
    generalize (rw.exec c).1 = e at hx s
    generalize (rw.exec c).2 = rw' at s
    cases s
    case register => cases hx
    case recordPhase w phase f d =>
      cases d
      case kept       => cases hx
      case completed  => cases hx; contradiction
      case aborted hp => exact .inr ⟨w, hp ▸ rfl⟩
      case failed hp  => exact .inl ⟨_, .failed hp⟩
    case workerDisconnected w o d =>
      cases d
      case harmless      => cases hx
      case lost _ he hp => exact .inl ⟨_, .lost he hp⟩
    case failRunHung o d => exact .inl ⟨_, .hung⟩

theorem not_terminal (h : run.terminal = false) (hr : (after run pre).run = some rw)
    (he : (after run pre).ending = none) : rw.terminal = false := by
  by_contra ht
  have hs := (ending_iff h hr).mpr (by simpa using ht)
  simp [he] at hs

theorem Stops.answers (h : run.terminal = false) (hs : Stops run pre r) : Answers run pre r := by
  have none_of {rw : RunWorkers} (hr : (after run pre).run = some rw) (ht : rw.terminal = false) :
      (after run pre).ending = none := by
    rw [← Option.not_isSome_iff_eq_none, ending_iff h hr, ht]
    decide
  constructor
  case aborted =>
    rintro rw w₀ hr ht rfl w e tx he hl hw
    have hn := none_of hr ht
    obtain ⟨hx, ha⟩ := @step_aborted rw (after run pre) w₀ ht hr hn
    have hm := hs rw .aborted hr hn (after_concat ▸ hx) (by decide) w e tx he hl hw
    rw [after_concat, ha] at hm
    exact (mem_aborts hn).mp hm
  case torn =>
    intro rw o hr ht t w e tx he hl hw
    have hn := none_of hr ht
    obtain ⟨hx, ha⟩ := t.step ht hr hn
    have hm := hs rw .failed hr hn (after_concat ▸ hx) (by decide) w e tx he hl hw
    rw [after_concat, ha, mem_aborts hn] at hm
    exact hm

theorem Answers.stops (h : run.terminal = false) (ha : Answers run pre r) : Stops run pre r := by
  intro rw x hr hn hx hc w e tx he hl hw
  have ht : rw.terminal = false := not_terminal h hr hn
  rw [after_concat] at hx ⊢
  cases tears_of_ending hr hn hx hc
  case inl hto =>
    obtain ⟨o, t⟩ := hto
    rw [(t.step ht hr hn).2, mem_aborts hn]
    exact ha.torn rw o hr ht t w e tx he hl hw
  case inr hw₀ =>
    obtain ⟨w₀, rfl⟩ := hw₀
    rw [(step_aborted ht hr hn).2, mem_aborts hn]
    exact ha.aborted rw w₀ hr ht rfl w e tx he hl hw

-- A worker that has registered again over another stream is told over its first one.
example : ¬Along (Stops (.new default 2 10 none)) [.call (.register "a" 1), .call (.register "b" 2),
    .call (.register "a" 3), .call (.recordPhase "b" 3)] := by
  intro h
  have hs := h [.call (.register "a" 1), .call (.register "b" 2), .call (.register "a" 3)] _
    List.prefix_rfl
  have hm := hs _ .failed rfl rfl rfl (by decide) "a" _ 3 rfl ⟨by simp, by simp⟩ rfl
  revert hm
  decide

end Coordinator.Managed
