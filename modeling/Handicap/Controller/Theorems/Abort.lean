import Handicap.Controller.Theorems.Launching

open Store Coordinator Api Tasks Trace

-- What a user abort does about the workers that register later.
namespace Controller

variable {cfg : Config} {env : Ambient} {s s' : State} {t : Task} {x y : Section}
variable {rest : List Section} {run : RunId} {tx : Tx} {worker : WorkerId} {e : Event}

def handsOut : RegisterOutcome → Bool
  | .assigned .. | .resend .. => true
  | .reject | .noRun          => false

-- abort_run has returned OK for the run.
def abortedOk (run : RunId) : Output :=
  .replied (.abortRun run (.ok ()))

-- The later output does not hand out a shard of a run that the earlier one declares aborted.
def Heeds (earlier later : Output) : Prop :=
  ∀ run worker tx outcome, earlier = abortedOk run →
    later = .registered run worker tx outcome → handsOut outcome = false

-- The run that a worker is about to be registered on.
def State.registers (s : State) (e : Event) : Option RunId :=
  match (s.next e).bind Section.calls with
  | some (run, .register ..) => some run
  | _                        => none

-- Once abort_run has returned OK for a run, no worker registers on it until the run has ended.
def RegistersAfterEnd (s : State) (e : Event) : Prop :=
  ∀ run, s.registers e = some run → abortedOk run ∈ s.log →
    ∀ rw, s.runs run = some rw → rw.terminal

theorem refuses_of_terminal (h : ∀ rw, s.runs run = some rw → rw.terminal) :
    handsOut (outcomeOf (s.effect run (.register worker tx))) = false := by
  cases hr : s.runs run
  case none => simp [State.effect, hr, outcomeOf, handsOut]
  case some rw =>
    simp [State.effect, hr, RunWorkers.exec, RunWorkers.register, h rw hr, outcomeOf, handsOut]

-- The outputs of a step come after those before it, and a registration meets the run as it is then.
theorem step_log (cfg : Config) (s : State) (e : Event) :
    (s.step cfg e).log = s.log ∨ ∃ o, (s.step cfg e).log = s.log ++ [o] ∧
      ∀ run worker tx outcome, o = .registered run worker tx outcome →
        s.registers e = some run ∧ outcome = outcomeOf (s.effect run (.register worker tx)) := by
  have hs := steps cfg s e
  generalize s.step cfg e = s' at hs
  cases hs
  case quiet q => exact .inl q.log
  case run t env x rest ht =>
    change (Controller.exec cfg env s x).1.log = _ ∨ ∃ o, (Controller.exec cfg env s x).1.log = _ ∧ _
    have l := exec_log cfg env s x
    generalize (Controller.exec cfg env s x).1.log = log at l
    cases l
    case nothing => exact .inl rfl
    case output o em =>
      refine .inr ⟨o, rfl, fun run worker tx outcome ho => ?_⟩
      cases em
      case sent       => cases ho
      case reported   => cases ho
      case replied    => cases ho
      case registered hx =>
        cases ho
        exact ⟨by simp [State.registers, next_run ht, hx], rfl⟩

theorem heeds_step (i : s.log.Pairwise Heeds) (h : RegistersAfterEnd s e) :
    (s.step cfg e).log.Pairwise Heeds := by
  cases step_log cfg s e
  case inl hl => exact hl ▸ i
  case inr hl =>
    obtain ⟨o, hl, ho⟩ := hl
    rw [hl]
    refine List.pairwise_append.mpr ⟨i, List.pairwise_singleton .., ?_⟩
    intro a ha b hb run worker tx outcome hab hreg
    cases List.mem_singleton.mp hb
    obtain ⟨hr, rfl⟩ := ho run worker tx outcome hreg
    exact refuses_of_terminal (h run hr (hab ▸ ha))

-- The end of a run is for good, and nothing of the run is handed out after it.
theorem Over.after (o : Over s run) (later : List Event) : Over (s.after cfg later) run ∧
    ∃ outputs, (s.after cfg later).log = s.log ++ outputs ∧
      ∀ worker tx outcome, .registered run worker tx outcome ∈ outputs →
        handsOut outcome = false := by
  induction later using List.reverseRecOn
  case nil => exact ⟨o, [], (List.append_nil _).symm, fun _ _ _ h => by cases h⟩
  case append_singleton later e ih =>
    obtain ⟨o, outputs, hl, ho⟩ := ih
    have hs : s.after cfg (later ++ [e]) = (s.after cfg later).step cfg e := run_concat
    rw [hs]
    refine ⟨o.step, ?_⟩
    cases step_log cfg (s.after cfg later) e
    case inl he => exact ⟨outputs, he.trans hl, ho⟩
    case inr he =>
      obtain ⟨out, he, hout⟩ := he
      refine ⟨outputs ++ [out], by rw [he, hl, List.append_assoc], fun worker tx outcome hm => ?_⟩
      cases List.mem_append.mp hm
      case inl hm => exact ho worker tx outcome hm
      case inr hm =>
        obtain ⟨-, rfl⟩ := hout run worker tx outcome (List.mem_singleton.mp hm).symm
        exact refuses_of_terminal o.terminal

-- If no worker registers on an aborted run before the run has ended, then nothing of it is handed
-- out. From the end of a run on, nothing of it is handed out whatever happens.
theorem no_load_after_abort (cfg : Config) (rows : RunId → Option RunRow)
    (overrides : WorkerId → Option PoolOverride) (events : List Event)
    (h : Meets (State.step cfg) RegistersAfterEnd (.init rows overrides) events) :
    let s := (State.init rows overrides).after cfg events
    s.log.Pairwise Heeds ∧
    ∀ run, Over s run → ∀ later, ∃ outputs, (s.after cfg later).log = s.log ++ outputs ∧
      ∀ worker tx outcome, .registered run worker tx outcome ∈ outputs → handsOut outcome = false :=
  ⟨h.invariant (I := fun s => s.log.Pairwise Heeds) .nil fun _ _ => heeds_step,
    fun _ o later => (o.after later).2⟩

-- A user aborts a run before its worker registers.
def lateWorker : List Event :=
  .trigger 0 (.spawnRun (sampleLaunch "r" 1)) :: go (.handler 0) 5 ++
    .trigger 1 (.abortRun "r") :: go (.handler 1) 4 ++
    .connect 0 :: .receive 0 (registration "w" "r") :: go (.stream 0) 1

theorem no_load_after_abort_counterexample :
    ¬(sampleState.after (sampleConfig false) lateWorker).log.Pairwise Heeds := by
  have hl : (sampleState.after (sampleConfig false) lateWorker).log =
      [.replied (.spawnRun "r" (.ok ())), abortedOk "r",
        .registered "r" "w" 0 (.assigned 0 1 0 1 true)] := rfl
  intro h
  rw [hl] at h
  have h := (List.pairwise_cons.mp (List.pairwise_cons.mp h).right).left
  cases h _ (List.mem_singleton_self _) "r" "w" 0 _ rfl rfl

-- A user aborts a run that is going on. Its worker reports that it has stopped, and after that
-- another worker registers.
def promptWorker : List Event :=
  .trigger 0 (.spawnRun (sampleLaunch "r" 2)) :: go (.handler 0) 5 ++
    .connect 0 :: .receive 0 (registration "w" "r") :: go (.stream 0) 4 ++
    .trigger 1 (.abortRun "r") :: go (.handler 1) 5 ++
    .receive 0 (.runStatus "r" 4 "") :: go (.stream 0) 1 ++
    .connect 1 :: .receive 1 (registration "x" "r") :: go (.stream 1) 1

-- The runs that a log has aborted.
def abortedRuns (log : List Output) : List RunId :=
  log.filterMap fun
    | .replied (.abortRun run (.ok ())) => some run
    | _                                 => none

theorem no_load_after_abort_prompt :
    let s := sampleState.after (sampleConfig false) promptWorker
    abortedOk "r" ∈ s.log ∧ s.log.Pairwise Heeds := by
  have h : Meets (State.step (sampleConfig false)) (fun s e => ∀ run ∈ s.registers e,
      run ∈ abortedRuns s.log → (s.runs run).all RunWorkers.terminal)
      sampleState promptWorker := by
    decide
  refine ⟨List.mem_of_getElem? (i := 4) rfl, (no_load_after_abort _ _ _ _ (h.mono
    (I := fun _ => True) trivial (fun _ _ _ _ => trivial) ?_)).1⟩
  intro s e _ h run hr hm rw hrw
  simpa [hrw] using h run hr (List.mem_filterMap.mpr ⟨_, hm, rfl⟩)

end Controller
