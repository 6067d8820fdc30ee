import Handicap.Controller.Step
import Handicap.Coordinator.Theorems.Calls

open Store Coordinator Api Tasks Trace

namespace Controller

-- The sections that a message, the end of a stream, a request or a timer starts with.
def Section.starts : Section → Bool
  | send .. | register .. | leave .. | getPoolOverride .. | ingestMetrics .. => true
  | recordPhase .. | failIncompleteRegistration .. | failRunHung .. | abortRun .. => true
  | poolExclude .. | poolSetControl .. | sweep .. | precheck .. => true
  | _ => false

variable {cfg : Config} {env : Ambient} {s s' : State} {t : Task} {x y : Section}
variable {rest : List Section} {run : RunId} {tx : Tx} {e : Event} {events : List Event}

-- What an event may do besides running a section: it may give such sections to an idle task.
structure Quiet (s s' : State) : Prop where
  runs  : s'.runs = s.runs
  pool  : s'.pool = s.pool
  rows  : s'.rows = s.rows
  log   : s'.log = s.log
  tasks : s'.tasks = s.tasks ∨
    ∃ t xs, s.tasks t = [] ∧ (∀ x ∈ xs, x.starts) ∧ s'.tasks = Function.update s.tasks t xs

theorem Quiet.pending {s s' : State} (q : Quiet s s') {x : Section} (h : Pending s'.tasks x) :
    x.starts ∨ Pending s.tasks x := by
  cases q.tasks
  case inl ht => exact .inr (ht ▸ h)
  case inr ht =>
    obtain ⟨t, xs, _, hx, ht⟩ := ht
    rw [ht] at h
    exact h.of_start.imp_left (hx x)

-- A task has run the first of its sections.
def State.ran (cfg : Config) (env : Ambient) (s : State) (t : Task) (x : Section)
    (rest : List Section) : State :=
  (exec cfg env s x).1.setTask t ((exec cfg env s x).2 ++ rest)

-- What the events do, if they can happen.
inductive Takes (cfg : Config) (s : State) : Event → State → Prop
  | nothing {e : Event} : Takes cfg s e s
  | connected {tx : Tx} :
    s.streams tx = none → Takes cfg s (.connect tx) (s.setStream tx ⟨none, none, false, false⟩)
  | received {tx : Tx} {m : WorkerMessage} {stream : Stream} :
    s.waiting tx = some stream → Takes cfg s (.receive tx m) (receive cfg s tx stream m)
  | ended {tx : Tx} {stream : Stream} :
    s.waiting tx = some stream → Takes cfg s (.eof tx) (s.setTask (.stream tx) [.leave tx])
  | dropped {tx : Tx} :
    Takes cfg s (.drop tx) { s with closed := Function.update s.closed tx true }
  | triggered {n : ℕ} {t : Trigger} :
    s.tasks (.handler n) = [] →
    Takes cfg s (.trigger n t) (s.setTask (.handler n) (t.sections s.pool))
  | run {t : Task} {env : Ambient} {x : Section} {rest : List Section} :
    s.tasks t = x :: rest → Takes cfg s (.run t env) (s.ran cfg env t x rest)

inductive Steps (cfg : Config) (s : State) : Event → State → Prop
  | quiet {e : Event} {s' : State} : Quiet s s' → Steps cfg s e s'
  | run {t : Task} {env : Ambient} {x : Section} {rest : List Section} :
    s.tasks t = x :: rest → Steps cfg s (.run t env) (s.ran cfg env t x rest)

theorem Quiet.rfl : Quiet s s :=
  ⟨.refl _, .refl _, .refl _, .refl _, .inl (.refl _)⟩

theorem Quiet.start {xs : List Section} (h : s.tasks t = []) (hx : ∀ x ∈ xs, x.starts) :
    Quiet s (s.setTask t xs) :=
  ⟨.refl _, .refl _, .refl _, .refl _, .inr ⟨t, xs, h, hx, .refl _⟩⟩

theorem State.tasks_of_waiting {stream : Stream} (h : s.waiting tx = some stream) :
    s.tasks (.stream tx) = [] := by
  have := (Option.filter_eq_some_iff.mp h).right
  simp_all

theorem Quiet.receive {stream : Stream} {m : WorkerMessage} (h : s.tasks (.stream tx) = []) :
    Quiet s (receive cfg s tx stream m) := by
  cases m
  case pong => exact .rfl
  case metricBatch => exact .start h (by simp [Section.starts])
  case runStatus => exact .start h (by cases stream.workerId <;> simp [Section.starts])
  case register r =>
    rw [Controller.receive]
    split_ifs
    all_goals
      refine ⟨.refl _, .refl _, .refl _, .refl _, .inr ⟨_, _, h, ?_, .refl _⟩⟩
      simp [Section.starts]

theorem Trigger.sections_start (pool : Pool) (t : Trigger) : ∀ x ∈ t.sections pool, x.starts := by
  cases t
  case poolHeartbeatTick =>
    intro x hx
    have ⟨_, _, hx⟩ := List.mem_map.mp hx
    exact hx ▸ rfl
  all_goals simp [sections, Section.starts]

theorem takes (cfg : Config) (s : State) (e : Event) : Takes cfg s e (s.step cfg e) := by
  cases e
  case connect tx =>
    rw [State.step]
    split
    case h_1 => exact .nothing
    case h_2 h => exact .connected h
  case receive tx m =>
    rw [State.step]
    split
    case h_1 stream h => exact .received h
    case h_2 => exact .nothing
  case eof tx =>
    rw [State.step]
    split
    case h_1 stream h => exact .ended h
    case h_2 => exact .nothing
  case drop tx => exact .dropped
  case trigger n t =>
    rw [State.step]
    split
    case h_1 h => exact .triggered h
    case h_2 => exact .nothing
  case run t env =>
    rw [State.step]
    split
    case h_1 => exact .nothing
    case h_2 x rest h => exact .run h

theorem steps (cfg : Config) (s : State) (e : Event) : Steps cfg s e (s.step cfg e) := by
  have ht := takes cfg s e
  generalize s.step cfg e = s' at ht
  cases ht
  case nothing => exact .quiet .rfl
  case connected => exact .quiet ⟨rfl, rfl, rfl, rfl, .inl rfl⟩
  case received h => exact .quiet (.receive (s.tasks_of_waiting h))
  case ended h => exact .quiet (.start (s.tasks_of_waiting h) (by simp [Section.starts]))
  case dropped => exact .quiet ⟨rfl, rfl, rfl, rfl, .inl rfl⟩
  case triggered h => exact .quiet (.start h (Trigger.sections_start s.pool _))
  case run h => exact .run h

-- The task that an event is about.
def Event.task : Event → Option Task
  | .receive tx _ => some (.stream tx)
  | .eof tx       => some (.stream tx)
  | .trigger n _  => some (.handler n)
  | .run t _      => some t
  | _             => none

-- The section that an event runs.
def State.next (s : State) : Event → Option Section
  | .run t _ => (s.tasks t).head?
  | _        => none

theorem next_run (h : s.tasks t = x :: rest) : s.next (.run t env) = some x := by
  simp [State.next, h]

section Frames

-- The call that a section makes on a run.
def Section.calls : Section → Option (RunId × Call)
  | register run worker tx               => some (run, .register worker tx)
  | assignNext run ((worker, tx) :: _)   => some (run, .register worker tx)
  | recordPhase run worker phase _       => some (run, .recordPhase worker phase)
  | workerDisconnected run worker _      => some (run, .workerDisconnected worker)
  | failRunHung run _ _                  => some (run, .failRunHung)
  | _                                    => none

@[simp]
theorem exec_tasks : (exec cfg env s x).1.tasks = s.tasks := by
  cases x
  case trySend => rw [exec]; split <;> rfl
  case poolExclude => simp only [exec]; split <;> rfl
  case poolSetControl => simp only [exec]; split <;> rfl
  case sweep => rw [exec]; split <;> first | rfl | (split <;> rfl)
  case precheck => simp only [exec]; split <;> rfl
  case insert => simp only [exec]; split <;> rfl
  case assignNext reserved => cases reserved <;> rfl
  case pushAssignment => rw [exec]; split <;> rfl
  all_goals rfl

@[simp]
theorem ran_tasks :
    (s.ran cfg env t x rest).tasks =
      Function.update s.tasks t ((exec cfg env s x).2 ++ rest) := by
  simp [State.ran, State.setTask]

theorem pending_of_ran (hp : Pending (s.ran cfg env t x rest).tasks y)
    (h : s.tasks t = x :: rest) : y ∈ (exec cfg env s x).2 ∨ Pending s.tasks y :=
  (ran_tasks ▸ hp).of_run h

theorem step_tasks_of_ne (h : e.task ≠ some t) : (s.step cfg e).tasks t = s.tasks t := by
  have ht := takes cfg s e
  generalize s.step cfg e = s' at ht
  have ne {t' : Task} (he : e.task = some t') : t ≠ t' := fun ht => h (he.trans (ht ▸ rfl))
  cases ht
  case nothing => rfl
  case connected => rfl
  case dropped => rfl
  case received tx m _ _ =>
    have hne := ne rfl
    cases m <;> simp only [receive, State.setTask]
    case register =>
      split
      case isTrue => exact Function.update_of_ne hne ..
      case isFalse => split <;> exact Function.update_of_ne hne ..
    case runStatus => exact Function.update_of_ne hne ..
    case metricBatch => exact Function.update_of_ne hne ..
  case ended => exact Function.update_of_ne (ne rfl) ..
  case triggered => exact Function.update_of_ne (ne rfl) ..
  case run => exact ran_tasks ▸ Function.update_of_ne (ne rfl) ..

-- What a section may do to the entry of a run in the map.
inductive Changes (s : State) (x : Section) (run : RunId) : Option RunWorkers → Prop
  | same : Changes s x run (s.runs run)
  | call {c : Call} {rw : RunWorkers} :
    x.calls = some (run, c) → s.runs run = some rw → Changes s x run (some (rw.exec c).2)
  | loaded {rw : RunWorkers} :
    x = .ingestMetrics run → s.runs run = some rw →
    Changes s x run (some { rw with firstLoad := true })
  | removed {message : String} {e : ApiError} :
    x = .cancelDispatchFailed run message e → Changes s x run none
  | enqueued {l : Launch} {n : ℕ} {counts : Option (Vector (ℕ × ℕ) n)}
      {reserved : Option (List (WorkerId × Tx))} :
    x = .enqueue l n counts reserved → l.run = run →
    Changes s x run (some (l.enqueued n counts))

theorem Changes.of_none (h : s.runs run = none) : Changes s x run none :=
  h ▸ .same

theorem Changes.of_call {run' : RunId} {c : Call} (h : x.calls = some (run', c)) :
    Changes s x run ((s.call run' c).runs run) := by
  rw [State.call]
  dsimp only
  rw [Function.update_apply]
  split
  case isFalse => exact .same
  case isTrue hr =>
    subst hr
    cases hw : s.runs run
    case none => exact .of_none hw
    case some rw => exact .call h hw

theorem exec_runs (cfg : Config) (env : Ambient) (s : State) (x : Section) (run : RunId) :
    Changes s x run ((exec cfg env s x).1.runs run) := by
  cases x
  case register => exact .of_call rfl
  case recordPhase => exact .of_call rfl
  case workerDisconnected => exact .of_call rfl
  case failRunHung => exact .of_call rfl
  case assignNext reserved =>
    cases reserved
    case nil => exact .same
    case cons => exact .of_call rfl
  case ingestMetrics run' =>
    simp only [exec, State.firstLoad, Function.update_apply]
    split
    case isFalse => exact .same
    case isTrue h =>
      subst h
      cases hw : s.runs run
      case none => exact .of_none hw
      case some => exact .loaded rfl hw
  case cancelDispatchFailed run' message e =>
    simp only [exec, State.setRun, Function.update_apply]
    split
    case isFalse => exact .same
    case isTrue h => subst h; exact .removed rfl
  case enqueue l n counts reserved =>
    simp only [exec, State.setRun, Function.update_apply]
    split
    case isFalse => exact .same
    case isTrue h => exact .enqueued rfl h.symm
  case trySend => rw [exec]; split <;> exact .same
  case poolExclude => simp only [exec]; split <;> exact .same
  case poolSetControl => simp only [exec]; split <;> exact .same
  case sweep => rw [exec]; split <;> first | exact .same | (split <;> exact .same)
  case precheck => simp only [exec]; split <;> exact .same
  case insert => simp only [exec]; split <;> exact .same
  case pushAssignment => rw [exec]; split <;> exact .same
  all_goals exact .same

-- What a section may do to the row of a run.
inductive Updates (now : ℤ) (s : State) (x : Section) (run : RunId) : Option RunRow → Prop
  | same : Updates now s x run (s.rows run)
  | write {w : Write} {row : RunRow} :
    x = .write run w → s.rows run = some row → Updates now s x run (some (w.apply now row))
  | inserted {l : Launch} :
    x = .insert l → l.run = run → s.rows run = none → Updates now s x run (some .inserted)

theorem Updates.of_none {now : ℤ} (h : s.rows run = none) : Updates now s x run none :=
  h ▸ .same

theorem exec_rows (cfg : Config) (env : Ambient) (s : State) (x : Section) (run : RunId) :
    Updates env.now s x run ((exec cfg env s x).1.rows run) := by
  cases x
  case write run' w =>
    simp only [exec, State.write, Function.update_apply]
    split
    case isFalse => exact .same
    case isTrue h =>
      subst h
      cases hw : s.rows run
      case none => exact .of_none hw
      case some => exact .write rfl hw
  case insert l =>
    simp only [exec]
    split
    case h_1 => exact .same
    case h_2 hr =>
      simp only [State.setRow, Function.update_apply]
      split
      case isFalse => exact .same
      case isTrue h => exact .inserted rfl h.symm (h ▸ hr)
  case assignNext reserved => cases reserved <;> exact .same
  case trySend => rw [exec]; split <;> exact .same
  case poolExclude => simp only [exec]; split <;> exact .same
  case poolSetControl => simp only [exec]; split <;> exact .same
  case sweep => rw [exec]; split <;> first | exact .same | (split <;> exact .same)
  case precheck => simp only [exec]; split <;> exact .same
  case pushAssignment => rw [exec]; split <;> exact .same
  all_goals exact .same

-- The message that a section sends, if the channel is open.
def Section.sends : Section → Option (Tx × Pb.ServerMessage)
  | send tx message                => some (tx, message)
  | trySend tx message             => some (tx, message)
  | sweep _ tx _                   => some (tx, .ping)
  | pushAssignment _ _ tx a _ _    => some (tx, .assignment a)
  | _                              => none

-- What a section may put out.
inductive Emits (s : State) (x : Section) : Output → Prop
  | sent {tx : Tx} {message : Pb.ServerMessage} :
    x.sends = some (tx, message) → s.closed tx = false → Emits s x (.sent tx message)
  | registered {run : RunId} {worker : WorkerId} {tx : Tx} :
    x.calls = some (run, .register worker tx) →
    Emits s x (.registered run worker tx (outcomeOf (s.effect run (.register worker tx))))
  | reported {run : RunId} {worker : WorkerId} {phase : ℤ} {message : String} :
    x = .recordPhase run worker phase message → Emits s x (.reported run worker phase)
  | replied {r : Reply} : x = .reply r → Emits s x (.replied r)

inductive Logs (s : State) (x : Section) : List Output → Prop
  | nothing : Logs s x s.log
  | output {o : Output} : Emits s x o → Logs s x (s.log ++ [o])

theorem Logs.of_send {message : Pb.ServerMessage} (h : x.sends = some (tx, message)) :
    Logs s x (s.send tx message).log := by
  rw [State.send]
  dsimp only
  split
  case isTrue => exact .nothing
  case isFalse hc => exact .output (.sent h (by simpa using hc))

theorem exec_log (cfg : Config) (env : Ambient) (s : State) (x : Section) :
    Logs s x (exec cfg env s x).1.log := by
  cases x
  case send => exact .of_send rfl
  case trySend => rw [exec]; split <;> first | exact .nothing | exact .of_send rfl
  case reply => exact .output (.replied rfl)
  case recordPhase => exact .output (.reported rfl)
  case register => exact .output (.registered rfl)
  case assignNext reserved =>
    cases reserved
    case nil => exact .nothing
    case cons => exact .output (.registered rfl)
  case poolExclude => simp only [exec]; split <;> exact .nothing
  case poolSetControl => simp only [exec]; split <;> exact .nothing
  case sweep =>
    rw [exec]
    split
    case isTrue => exact .nothing
    case isFalse => split <;> first | exact .nothing | exact .of_send rfl
  case precheck => simp only [exec]; split <;> exact .nothing
  case insert => simp only [exec]; split <;> exact .nothing
  case pushAssignment =>
    rw [exec]
    split
    case isTrue => exact .nothing
    case isFalse hc => exact .output (.sent rfl (by simpa using hc))
  all_goals exact .nothing

end Frames

end Controller
