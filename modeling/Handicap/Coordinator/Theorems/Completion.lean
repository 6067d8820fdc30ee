import Handicap.Coordinator.Theorems.Sharding

open Store Pb Trace

namespace Coordinator

variable {worker w : WorkerId} {phase : ℤ} {calls : List Call} {c : Call}

theorem phaseOf_isTerminal (hf : phase ≠ Phase.failed.toInt) (ha : phase ≠ Phase.aborted.toInt)
    (h : (phaseOf phase).isTerminal) : phase = Phase.completed.toInt := by
  rw [phaseOf] at h
  split_ifs at h
  all_goals first | assumption | contradiction

theorem phaseOf_eq_completed : phaseOf phase = .completed ↔ phase = Phase.completed.toInt :=
  ⟨RunWorkers.phaseOf_completed, fun h => if_pos h⟩

theorem lastReport_recordPhase :
    lastReport worker (calls ++ [.recordPhase w phase]) =
      if w = worker then some phase else lastReport worker calls := by
  rw [lastReport_concat, reportOf]
  split <;> rfl

theorem lastReport_of_ne (h : ∀ w p, c ≠ .recordPhase w p) :
    lastReport worker (calls ++ [c]) = lastReport worker calls := by
  rw [lastReport_concat]
  cases c
  case recordPhase w p => exact absurd rfl (h w p)
  all_goals rfl

namespace RunWorkers

variable {run rw : RunWorkers}

section Once

-- A run ends at most once, and it has ended when it is terminal.
theorem endings_length (h : run.terminal = false) (calls : List Call) :
    (run.endings calls).length = if (run.after calls).terminal then 1 else 0 := by
  induction calls using List.reverseRecOn
  case nil => simp [h, endings, history]
  case append_singleton calls c ih =>
    have hs := exec_step (run.after calls) c
    rw [endings_concat, after_concat, List.length_append, ih]
    cases ht : (run.after calls).terminal
    case true =>
      have hnone : ((run.after calls).exec c).1.ending = none := by
        by_contra he
        have := hs.ending_isSome.mp (Option.isSome_iff_ne_none.mpr he)
        simp [ht] at this
      simp [hnone, hs.preserves_terminal ht]
    case false =>
      cases he : ((run.after calls).exec c).1.ending
      case none =>
        have hf : ((run.after calls).exec c).2.terminal = false := by
          by_contra hf
          have := hs.ending_isSome.mpr ⟨ht, by simpa using hf⟩
          simp [he] at this
        simp [hf]
      case some =>
        have := hs.ending_isSome.mp (he ▸ rfl)
        simp [this.right]

end Once

-- What is known of the calls so far as long as the run is not over: nobody has reported a failure,
-- a worker counts as done only if it has reported so last, and a member whose stream has closed had
-- done so before.
structure Undecided (run : RunWorkers) (calls : List Call) : Prop where
  reported  : ∀ w e, (run.after calls).workers.lookup w = some e → e.phase.isTerminal →
    lastReport w calls = some Phase.completed.toInt
  noFailure : ∀ w p, .recordPhase w p ∈ calls → p ≠ Phase.failed.toInt ∧ p ≠ Phase.aborted.toInt
  lostLate  : Along (fun pre c => ∀ w, c = .workerDisconnected w → w ∈ run.members pre →
    lastReport w pre = some Phase.completed.toInt) calls

namespace Undecided

theorem snoc (u : Undecided run calls) (s : Sharded (run.grants calls) (run.after calls))
    (ht : ((run.after calls).exec c).2.terminal = false) : Undecided run (calls ++ [c]) := by
  have ht' : (run.after calls).terminal = false := by
    by_contra h
    simp [(exec_step _ c).preserves_terminal (by simpa using h)] at ht
  have hs := exec_step (run.after calls) c
  have key : (∀ w e, ((run.after calls).exec c).2.workers.lookup w = some e → e.phase.isTerminal →
        lastReport w (calls ++ [c]) = some Phase.completed.toInt) ∧
      (∀ w p, c = .recordPhase w p → p ≠ Phase.failed.toInt ∧ p ≠ Phase.aborted.toInt) ∧
      ∀ w, c = .workerDisconnected w → w ∈ run.members calls →
        lastReport w calls = some Phase.completed.toInt := by
    generalize ((run.after calls).exec c).1 = e, ((run.after calls).exec c).2 = rw' at hs ht
    cases hs
    case register worker tx o r =>
      refine ⟨fun w e he hp => ?_, by simp, by simp⟩
      rw [lastReport_of_ne (by simp)]
      cases r
      case rejected => exact u.reported w e he hp
      case resent => exact u.reported w e he hp
      case admitted =>
        rw [lookup_addWorker] at he
        split at he
        case isTrue => cases he; contradiction
        case isFalse => exact u.reported w e he hp
    case recordPhase worker phase f r =>
      cases r
      case kept h =>
        obtain ⟨hf, ha, _⟩ := h.resolve_left (by simp [ht'])
        refine ⟨fun w e he hp => ?_, fun w p h => ?_, by simp⟩
        case refine_2 => cases h; exact ⟨hf, ha⟩
        rw [lookup_setPhase] at he
        rw [lastReport_recordPhase]
        split at he
        case isTrue hw =>
          obtain ⟨e, he, rfl⟩ := Option.map_eq_some_iff.mp he
          rw [if_pos hw.symm, phaseOf_isTerminal hf ha hp]
        case isFalse hw => exact (if_neg (Ne.symm hw)).trans (u.reported w e he hp)
      all_goals cases ht
    case workerDisconnected worker o d =>
      cases d
      case harmless h =>
        have h := h.resolve_left (by simp [ht'])
        refine ⟨fun w e he hp => ?_, by simp, fun w hw hm => ?_⟩
        · exact (lastReport_of_ne (by simp)).trans (u.reported w e he hp)
        · cases hw
          obtain ⟨e, he⟩ := (s.mem_iff ht').mp hm
          exact u.reported _ e he (h e he)
      case lost => cases ht
    case failRunHung o d =>
      cases d
      case ended h => simp [ht'] at h
      case hung => cases ht
  refine ⟨fun w e he => key.left w e (after_concat ▸ he), fun w p h => ?_,
    along_concat.mpr ⟨u.lostLate, key.right.right⟩⟩
  cases List.mem_append.mp h
  case inl h => exact u.noFailure w p h
  case inr h => exact key.right.left w p (List.mem_singleton.mp h).symm

theorem of_not_terminal (h0 : Undecided run []) (s : Sharded [] run)
    (ht : (run.after calls).terminal = false) : Undecided run calls := by
  induction calls using List.reverseRecOn
  case nil => exact h0
  case append_singleton calls c ih =>
    rw [after_concat] at ht
    have ht' : (run.after calls).terminal = false := by
      by_contra h
      simp [(exec_step _ c).preserves_terminal (by simpa using h)] at ht
    exact (ih ht').snoc (s.after calls) ht

end Undecided

section Completed

variable {base : PendingAssignment} {expected : ℕ} {totalVus : U32}
variable {precomputed : Option (Vector (ℕ × ℕ) expected)}

theorem Undecided.new : Undecided (.new base expected totalVus precomputed) [] where
  reported  := fun _ _ h => by cases h
  noFailure := nofun
  lostLate  := along_nil

theorem members_recordPhase :
    run.members (calls ++ [.recordPhase worker phase]) = run.members calls := by
  simp [members_concat, grantOf]

-- All expected workers have been given a shard, and each of them has reported last that it
-- completed.
def Done (run : RunWorkers) (calls : List Call) : Prop :=
  (run.members calls).length = run.expected ∧
    ∀ w ∈ run.members calls, lastReport w calls = some Phase.completed.toInt

theorem Undecided.done (u : Undecided run calls) (s : Sharded (run.grants calls) (run.after calls))
    (h : ((run.after calls).exec c).1.ending = some .completed) : run.Done (calls ++ [c]) := by
  have hs := exec_step (run.after calls) c
  generalize ((run.after calls).exec c).1 = e, ((run.after calls).exec c).2 = rw' at hs h
  cases hs
  case register => cases h
  case workerDisconnected d => cases d <;> cases h
  case failRunHung d => cases d <;> cases h
  case recordPhase worker phase f r =>
    cases r
    case kept => cases h
    case failed => cases h
    case aborted => cases h
    case completed ht hp hc =>
      rw [Done, members_recordPhase]
      refine ⟨?length, fun w hw => ?last⟩
      case length =>
        have hk := (setPhase_keys_perm (phaseOf phase)).length_eq.symm.trans hc.right
        exact (s.keys ht).length_eq.symm.trans <| hk.trans <|
          (setPhase_expected _).trans expected_after
      case last =>
        rw [lastReport_recordPhase]
        split
        case isTrue => rw [hp]
        case isFalse hne =>
          have ⟨e, he⟩ := (s.mem_iff ht).mp hw
          have he' := (lookup_setPhase (phaseOf phase)).trans ((if_neg (Ne.symm hne)).trans he)
          exact u.reported w e he (allCompleted_iff.mp hc.left w e he' ▸ rfl)

end Completed

-- Nothing happens to the run except that workers register, that members report progress and then
-- that they completed, and that streams close after that report.
def Benign (run : RunWorkers) (pre : List Call) : Call → Prop
  | .register _ _         => True
  | .recordPhase w p      =>
    w ∈ run.members pre ∧ (p = Phase.completed.toInt ∨
      (phaseOf p).isTerminal = false ∧ lastReport w pre ≠ some Phase.completed.toInt)
  | .workerDisconnected w => lastReport w pre = some Phase.completed.toInt
  | .failRunHung          => False

-- The map tells who the members of the run are and which of them have completed.
structure Tracks (run : RunWorkers) (calls : List Call) (rw : RunWorkers) : Prop where
  expected : rw.expected = run.expected
  keys     : rw.workers.keys.Perm (run.members calls)
  phases   : ∀ w e, rw.workers.lookup w = some e →
    (e.phase = .completed ↔ lastReport w calls = some Phase.completed.toInt)
  silent   : ∀ w ∉ run.members calls, lastReport w calls = none

namespace Tracks

theorem mem_iff (t : Tracks run calls rw) :
    worker ∈ run.members calls ↔ ∃ e, rw.workers.lookup worker = some e := by
  rw [← t.keys.mem_iff, ← Option.isSome_iff_exists, AList.lookup_isSome, AList.mem_keys]

theorem complete_iff (t : Tracks run calls rw) : rw.Complete ↔ run.Done calls := by
  rw [Complete, allCompleted_iff, t.keys.length_eq, t.expected, Done, and_comm]
  refine and_congr_right fun _ => ⟨fun h w hw => ?_, fun h w e hw => ?_⟩
  · have ⟨e, hw⟩ := t.mem_iff.mp hw
    exact (t.phases w e hw).mp (h w e hw)
  · exact (t.phases w e hw).mpr (h w (t.mem_iff.mpr ⟨e, hw⟩))

-- A call that is no report and admits nobody.
theorem skip (t : Tracks run calls rw) (hr : ∀ w, reportOf w c = none)
    (hm : run.members (calls ++ [c]) = run.members calls) : Tracks run (calls ++ [c]) rw := by
  have hl w : lastReport w (calls ++ [c]) = lastReport w calls := by
    rw [lastReport_concat, hr]
    rfl
  refine ⟨t.expected, hm ▸ t.keys, fun w e he => hl w ▸ t.phases w e he, fun w hw => ?_⟩
  exact (hl w).trans (t.silent w (hm ▸ hw))

theorem setPhase (t : Tracks run calls rw) (hw : worker ∈ run.members calls) :
    Tracks run (calls ++ [.recordPhase worker phase]) (rw.setPhase worker (phaseOf phase)) where
  expected := (setPhase_expected _).trans t.expected
  keys     := by
    rw [members_recordPhase]
    exact (setPhase_keys_perm _).trans t.keys
  phases   := by
    intro w e he
    rw [lookup_setPhase] at he
    rw [lastReport_recordPhase]
    split at he
    case isTrue h =>
      obtain ⟨e, _, rfl⟩ := Option.map_eq_some_iff.mp he
      simp [h, phaseOf_eq_completed]
    case isFalse h => exact if_neg (Ne.symm h) ▸ t.phases w e he
  silent   := by
    intro w h
    rw [members_recordPhase] at h
    have hne : worker ≠ w := fun he => h (he ▸ hw)
    rw [lastReport_recordPhase, if_neg hne]
    exact t.silent w h

end Tracks

section Benign

theorem Benign.not_failure (b : run.Benign calls (.recordPhase worker phase)) :
    phase ≠ Phase.failed.toInt ∧ phase ≠ Phase.aborted.toInt := by
  constructor
  all_goals
    rintro rfl
    cases b.right
    case inl h => cases h
    case inr h => cases h.left

theorem Benign.done_stays (b : run.Benign calls (.recordPhase worker phase)) (d : run.Done calls) :
    run.Done (calls ++ [.recordPhase worker phase]) := by
  have hp : phase = Phase.completed.toInt :=
    b.right.resolve_right fun h => h.right (d.right _ b.left)
  rw [Done, members_recordPhase]
  refine ⟨d.left, fun w hw => ?_⟩
  rw [lastReport_recordPhase]
  split
  case isTrue => rw [hp]
  case isFalse => exact d.right w hw

theorem Benign.of_done (b : run.Benign calls (.recordPhase worker phase))
    (d : run.Done (calls ++ [.recordPhase worker phase])) : phase = Phase.completed.toInt := by
  have h := d.right worker (by rw [members_recordPhase]; exact b.left)
  rw [lastReport_recordPhase, if_pos rfl] at h
  exact Option.some.inj h

theorem done_skip (hr : ∀ w, reportOf w c = none)
    (hm : run.members (calls ++ [c]) = run.members calls) :
    run.Done (calls ++ [c]) ↔ run.Done calls := by
  rw [Done, Done, hm]
  simp [lastReport_concat, hr]

end Benign

structure InStep (run : RunWorkers) (calls : List Call) : Prop where
  tracks   : Tracks run calls (run.after calls)
  terminal : (run.after calls).terminal ↔ run.Done calls
  endings  : run.endings calls = if (run.after calls).terminal then [.completed] else []

namespace InStep

theorem skip (i : InStep run calls) {e : Effect}
    (hx : (run.after calls).exec c = (e, run.after calls)) (hr : ∀ w, reportOf w c = none)
    (he : e.ending = none) (hg : grantOf (c, e) = none) : InStep run (calls ++ [c]) := by
  have hm : run.members (calls ++ [c]) = run.members calls := by simp [members_concat, hx, hg]
  refine ⟨?tracks, ?terminal, ?endings⟩
  case tracks =>
    rw [after_concat, hx]
    exact i.tracks.skip hr hm
  case terminal =>
    rw [after_concat, hx, done_skip hr hm]
    exact i.terminal
  case endings =>
    rw [endings_concat, after_concat, hx, he, i.endings]
    simp

theorem register (i : InStep run calls) {tx : Tx} {o : RegisterOutcome}
    (hx : (run.after calls).exec (.register worker tx) = (.registered o, rw))
    (r : Registers (run.after calls) worker tx o rw) :
    InStep run (calls ++ [.register worker tx]) := by
  cases r
  case rejected => exact i.skip hx (fun _ => rfl) rfl rfl
  case resent => exact i.skip hx (fun _ => rfl) rfl rfl
  case admitted h ht hw =>
    have hm : run.members (calls ++ [.register worker tx]) = run.members calls ++ [worker] := by
      simp [members_concat, hx, grantOf]
    have hnew : worker ∉ run.members calls := by
      rw [i.tracks.mem_iff]
      simp [hw]
    have hl w : lastReport w (calls ++ [.register worker tx]) = lastReport w calls :=
      lastReport_of_ne (by simp)
    refine ⟨?tracks, ?terminal, ?endings⟩
    case tracks =>
      rw [after_concat, hx]
      refine ⟨i.tracks.expected, ?_, fun w e he => ?_, fun w hw => ?_⟩
      · rw [hm, addWorker_keys hw]
        exact (i.tracks.keys.cons worker).trans (List.perm_append_singleton worker _).symm
      · rw [lookup_addWorker] at he
        rw [hl]
        split at he
        case isTrue hwe => cases he; simp [hwe, i.tracks.silent worker hnew]
        case isFalse => exact i.tracks.phases w e he
      · rw [hm, List.mem_append, not_or] at hw
        exact (hl w).trans (i.tracks.silent w hw.left)
    case terminal =>
      -- The new member has not reported anything.
      have hd : ¬run.Done (calls ++ [.register worker tx]) := by
        intro d
        have h := d.right worker (by simp [hm])
        rw [hl, i.tracks.silent worker hnew] at h
        cases h
      simp [hx, ht, hd]
    case endings => simp [endings_concat, i.endings, hx, ht, Effect.ending]

theorem recordPhase (i : InStep run calls) {f : Finalize}
    (b : run.Benign calls (.recordPhase worker phase))
    (hx : (run.after calls).exec (.recordPhase worker phase) = (.recorded f, rw))
    (r : Records (run.after calls) worker phase f rw) :
    InStep run (calls ++ [.recordPhase worker phase]) := by
  have t : Tracks run (calls ++ [.recordPhase worker phase]) _ := i.tracks.setPhase b.left
  cases r
  case failed hp => exact absurd hp b.not_failure.left
  case aborted hp => exact absurd hp b.not_failure.right
  case kept h =>
    have ht : ((run.after calls).setPhase worker (phaseOf phase)).terminal ↔
        run.Done (calls ++ [.recordPhase worker phase]) := by
      rw [setPhase_terminal]
      refine ⟨fun ht => b.done_stays (i.terminal.mp ht), fun d => h.resolve_right fun h => ?_⟩
      exact h.right.right ⟨b.of_done d, t.complete_iff.mpr d⟩
    refine ⟨?_, ?_, ?_⟩
    · rw [after_concat, hx]
      exact t
    · rw [after_concat, hx]
      exact ht
    · simp [endings_concat, i.endings, hx, Effect.ending]
  case completed ht hp hc =>
    refine ⟨?_, ?_, ?_⟩
    · rw [after_concat, hx]
      exact ⟨t.expected, t.keys, t.phases, t.silent⟩
    · simp [hx, t.complete_iff.mp hc]
    · simp [endings_concat, i.endings, hx, ht, Effect.ending]

theorem workerDisconnected (i : InStep run calls) {s : Option (List Tx)}
    (b : run.Benign calls (.workerDisconnected worker))
    (hx : (run.after calls).exec (.workerDisconnected worker) = (.tornDown s, rw))
    (d : Disconnects (run.after calls) worker s rw) :
    InStep run (calls ++ [.workerDisconnected worker]) := by
  cases d
  case harmless => exact i.skip hx (fun _ => rfl) rfl rfl
  case lost e ht he hp =>
    have hc := (i.tracks.phases worker e he).mpr b
    simp [hc, Phase.isTerminal] at hp

theorem step (i : InStep run calls) (b : run.Benign calls c) : InStep run (calls ++ [c]) := by
  have hs := exec_step (run.after calls) c
  generalize hx : (run.after calls).exec c = x at hs
  obtain ⟨e, rw⟩ := x
  cases hs
  case register r => exact i.register hx r
  case recordPhase r => exact i.recordPhase b hx r
  case workerDisconnected d => exact i.workerDisconnected b hx d
  case failRunHung => exact b.elim

theorem of_benign (h0 : InStep run []) (b : Along run.Benign calls) : InStep run calls := by
  induction calls using List.reverseRecOn
  case nil => exact h0
  case append_singleton calls c ih =>
    have ⟨b, hc⟩ := along_concat.mp b
    exact (ih b).step hc

theorem new {base : PendingAssignment} {expected : ℕ} {totalVus : U32}
    {precomputed : Option (Vector (ℕ × ℕ) expected)} (h : 1 ≤ expected) :
    InStep (.new base expected totalVus precomputed) [] where
  tracks   := ⟨rfl, .nil, fun _ _ h => (by cases h), fun _ _ => rfl⟩
  terminal := by
    refine ⟨nofun, fun d => ?_⟩
    have hl : 0 = expected := d.left
    omega
  endings  := rfl

end InStep

namespace InStep

theorem ending_iff (i : InStep run calls) (i' : InStep run (calls ++ [c])) :
    ((run.after calls).exec c).1.ending = some .completed ↔
      run.Done (calls ++ [c]) ∧ ¬run.Done calls := by
  have h : run.endings (calls ++ [c]) = _ := endings_concat
  rw [i.endings, i'.endings] at h
  rw [← i.terminal, ← i'.terminal]
  generalize ((run.after calls).exec c).1.ending = e, (run.after calls).terminal = t,
    (run.after (calls ++ [c])).terminal = t' at h
  cases t <;> cases t' <;> cases e <;> simp_all

end InStep

-- A run ends once at most, and it ends as completed only if all expected workers have registered
-- and completed and none of them has failed or was lost before. In turn, a run to which nothing
-- else happens ends as completed with the last of these reports.
theorem completion_decision (base : PendingAssignment) {expected : ℕ} (totalVus : U32)
    (precomputed : Option (Vector (ℕ × ℕ) expected)) (hn : 1 ≤ expected) :
    let run := new base expected totalVus precomputed
    (∀ calls calls', (run.after calls).terminal → (run.after (calls ++ calls')).terminal) ∧
    (∀ calls, (run.endings calls).length = if (run.after calls).terminal then 1 else 0) ∧
    (∀ calls c, ((run.after calls).exec c).1.ending = some .completed →
      (run.members (calls ++ [c])).Nodup ∧ run.Done (calls ++ [c]) ∧
      (∀ w p, .recordPhase w p ∈ calls → p ≠ Phase.failed.toInt ∧ p ≠ Phase.aborted.toInt) ∧
      Along (fun pre c => ∀ w, c = .workerDisconnected w → w ∈ run.members pre →
        lastReport w pre = some Phase.completed.toInt) calls) ∧
    ∀ calls c, Along run.Benign (calls ++ [c]) →
      (((run.after calls).exec c).1.ending = some .completed ↔
        run.Done (calls ++ [c]) ∧ ¬run.Done calls) ∧
      run.endings calls = if (run.after calls).terminal then [.completed] else [] := by
  intro run
  refine ⟨fun calls calls' => terminal_after_append, endings_length rfl, fun calls c hc => ?_,
    fun calls c b => ?_⟩
  · have s calls : Sharded (run.grants calls) (run.after calls) := Sharded.new.after calls
    have ht : (run.after calls).terminal = false :=
      ((exec_step _ c).ending_isSome.mp (by rw [hc]; rfl)).left
    have u : Undecided run calls := Undecided.new.of_not_terminal Sharded.new ht
    exact ⟨(s _).nodup, u.done (s calls) hc, u.noFailure, u.lostLate⟩
  · have i : InStep run calls := (InStep.new hn).of_benign (along_concat.mp b).left
    have i' : InStep run (calls ++ [c]) := (InStep.new hn).of_benign b
    exact ⟨i.ending_iff i', i.endings⟩

-- Two workers: the one that has completed is gone when the other one completes.
theorem completion_decision_pair :
    let run := new default 2 10 none
    let calls : List Call := [.register "a" 1, .register "b" 2, .recordPhase "b" 1,
      .recordPhase "a" 2, .workerDisconnected "a"]
    ((run.after calls).exec (.recordPhase "b" 2)).1.ending = some .completed := by
  intro run calls
  have h := completion_decision default 10 (none : Option (Vector (ℕ × ℕ) 2)) (by decide)
  have hb : Along run.Benign ([] ++ [.register "a" 1] ++ [.register "b" 2] ++
      [.recordPhase "b" 1] ++ [.recordPhase "a" 2] ++ [.workerDisconnected "a"] ++
      [.recordPhase "b" 2]) := by
    simp only [along_concat]
    exact ⟨⟨⟨⟨⟨⟨along_nil, trivial⟩, trivial⟩, by decide, .inr (by decide)⟩, by decide, .inl rfl⟩,
      rfl⟩, by decide, .inl rfl⟩
  refine ((h.right.right.right calls (.recordPhase "b" 2) hb).left).mpr ⟨⟨rfl, by decide⟩, ?_⟩
  intro d
  cases d.right "b" (by decide)

end RunWorkers

end Coordinator
