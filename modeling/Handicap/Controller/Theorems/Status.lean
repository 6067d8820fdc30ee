import Handicap.Controller.Theorems.Launching

open Store Coordinator Api Tasks Trace

-- How long a run keeps the status that it ended with.
namespace Store

-- The status that an update sets.
def Write.status : Write → RunStatus
  | setStatus status     => status
  | markAborted          => .aborted
  | markFailed _         => .failed
  | markFailedIfActive _ => .failed

-- The update changes the status of a row with the given one.
def Write.overwrites (w : Write) (status : RunStatus) : Bool :=
  match w with
  | setStatus new        => status ≠ .aborted ∧ new ≠ status
  | markAborted          => status ≠ .aborted
  | markFailed _         => status ≠ .failed
  | markFailedIfActive _ => status.isActive

variable {w : Write} {row : RunRow} {now : Int}

theorem Write.status_apply :
    (w.apply now row).status = if w.overwrites row.status then w.status else row.status := by
  cases w
  case setStatus new =>
    by_cases h : row.status = .aborted <;> by_cases hn : new = row.status <;>
      cases new <;> simp_all [apply, RunRow.setStatus, overwrites, status]
  case markAborted =>
    by_cases h : row.status = .aborted <;> simp [apply, RunRow.markAborted, overwrites, status, h]
  case markFailed =>
    by_cases h : row.status = .failed <;> simp [apply, RunRow.markFailed, overwrites, status, h]
  case markFailedIfActive =>
    cases h : row.status.isActive <;>
      simp [apply, RunRow.markFailedIfActive, RunRow.markFailed, overwrites, status, h]

end Store

namespace Controller

variable {cfg : Config} {env : Ambient} {s s' : State} {t : Task} {x y : Section}
variable {rest : List Section} {run : RunId} {tx : Tx} {worker : WorkerId} {e : Event}
variable {w : Write} {row : RunRow}

-- The step leaves every status as it is that a run has ended with.
def Absorbs (cfg : Config) (s : State) (e : Event) : Prop :=
  ∀ run row, s.rows run = some row → row.status.isActive = false →
    ∃ row', (s.step cfg e).rows run = some row' ∧ row'.status = row.status

-- When the status of a row becomes final, no other update of the row is left that would overwrite
-- it; and no such update is decided afterwards, be it because a launch is given up or because a
-- first worker is sent its assignment.
structure Uncontended (s : State) (e : Event) : Prop where
  alone  : ∀ t env run w rest row, e = .run t env → s.tasks t = .write run w :: rest →
    s.rows run = some row → row.status.isActive → w.status.isActive = false →
    ∀ w', Pending (Function.update s.tasks t rest) (.write run w') →
      w'.overwrites w.status = false
  giveUp : ∀ t env run message error rest row, e = .run t env →
    s.tasks t = .cancelDispatchFailed run message error :: rest → s.rows run = some row →
    row.status ≠ .completed ∧ row.status ≠ .aborted
  first  : ∀ t env run worker tx place rest row, e = .run t env →
    s.tasks t = .assignmentFor run worker tx place true :: rest → (s.runs run).isSome →
    s.rows run = some row → row.status ≠ .completed ∧ row.status ≠ .failed
  push   : ∀ t env run worker tx a reserved rest row, e = .run t env →
    s.tasks t = .pushAssignment run worker tx a true reserved :: rest → s.closed tx = false →
    s.rows run = some row → row.status ≠ .completed ∧ row.status ≠ .failed

-- Updates that end a row only come from runs that are over, and then nothing is left to be done
-- that would change how it ended.
structure Decided (s : State) : Prop where
  ordered : Ordered s
  ending  : ∀ run w, Pending s.tasks (.write run w) →
    w.status = .completed ∨ w.status = .failed → Over s run
  ended   : ∀ run row, s.rows run = some row →
    row.status = .completed ∨ row.status = .failed → Over s run
  settled : ∀ run row w, s.rows run = some row → row.status.isActive = false →
    Pending s.tasks (.write run w) → w.overwrites row.status = false

-- A run that is ended by a call is over.
theorem over_of_ending {c : Call} {f : Effect} (o : Ordered s) (h : s.tasks t = x :: rest)
    (hr : (exec cfg env s x).1.runs = (s.call run c).runs) (he : s.effect run c = some f)
    (hf : f.ending.isSome) :
    Over (s.ran cfg env t x rest) run := by
  obtain ⟨rw, hw, rfl⟩ := Option.map_eq_some_iff.mp he
  have hr' : (exec cfg env s x).1.runs run = some (rw.exec c).2 := by
    simp [hr, State.call, hw]
  refine ⟨fun rw' hw' => ?_, exec_rows_isSome (o.inserted run (hw ▸ rfl)), fun y hy => ?_⟩
  · obtain rfl : (rw.exec c).2 = rw' := Option.some.inj (hr'.symm.trans hw')
    exact ((rw.exec_step c).ending_isSome.mp hf).right
  · exact (o.exec h).enqueued y run hy (by simp [State.ran, State.setTask, hr'])

-- A call that ends a run finds it not over.
theorem running_of_ending {c : Call} {f : Effect} (he : s.effect run c = some f)
    (hf : f.ending.isSome) : ∃ rw, s.runs run = some rw ∧ rw.terminal = false := by
  obtain ⟨rw, hw, rfl⟩ := Option.map_eq_some_iff.mp he
  exact ⟨rw, hw, ((rw.exec_step c).ending_isSome.mp hf).left⟩

-- A run whose launch is given up is over.
theorem over_of_giveUp {m : String} {er : ApiError} (o : Ordered s)
    (h : s.tasks t = .cancelDispatchFailed run m er :: rest) :
    Over (s.ran cfg env t (.cancelDispatchFailed run m er) rest) run := by
  refine ⟨fun rw hw => ?_, ?_, fun y hy hp => ?_⟩
  · simp [State.ran, exec, State.setRun, State.setTask] at hw
  · exact o.launched (.cancelDispatchFailed run m er) run (.intro h) rfl
  · have hy := o.exclusive.release h rfl (ran_tasks ▸ hy) (Section.launching_of_preparing hp)
    cases (exec_follows hy).preparing hp
    case inl hx => cases hx.left
    case inr hn => simpa [hn] using o.launched _ run (.intro h) rfl

namespace Decided

theorem init {rows : RunId → Option RunRow} {overrides : WorkerId → Option PoolOverride} :
    Decided (.init rows overrides) where
  ordered := .init
  ending  := fun _ _ h => by simp [Pending, State.init] at h
  ended   := fun run row h _ =>
    ⟨fun _ hr => by simp [State.init] at hr, h ▸ rfl,
      fun _ hp => by simp [Pending, State.init] at hp⟩
  settled := fun _ _ _ _ _ h => by simp [Pending, State.init] at h

theorem quiet (d : Decided s) (q : Quiet s s') : Decided s' where
  ordered := d.ordered.quiet q
  ending  := fun run w h hw =>
    (d.ending run w ((q.pending h).resolve_left (by simp [Section.starts])) hw).quiet q
  ended   := fun run row hr hs => (d.ended run row (q.rows ▸ hr) hs).quiet q
  settled := fun run row w hr hs hp =>
    d.settled run row w (q.rows ▸ hr) hs ((q.pending hp).resolve_left (by simp [Section.starts]))

-- A run that is not over in the map has not ended, unless the user has aborted it, and then no
-- status is set any more.
theorem guarded (d : Decided s) {rw : RunWorkers} {status : RunStatus} (hw : s.runs run = some rw)
    (ht : rw.terminal = false) (hr : s.rows run = some row) (hs : row.status.isActive = false) :
    (Write.setStatus status).overwrites row.status = false := by
  by_cases ha : row.status = .aborted
  · simp [Write.overwrites, ha]
  · have hc : row.status = .completed ∨ row.status = .failed := by
      cases h : row.status <;> simp_all [RunStatus.isActive]
    simpa [ht] using (d.ended run row hr hc).terminal rw hw

theorem ending_exec (d : Decided s) (h : s.tasks t = x :: rest)
    (hp : Pending (s.ran cfg env t x rest).tasks (.write run w))
    (hw : w.status = .completed ∨ w.status = .failed) :
    Over (s.ran cfg env t x rest) run := by
  cases pending_of_ran hp h
  case inr hp => exact (d.ending run w hp hw).exec h
  case inl hy =>
    have f := exec_follows hy
    clear hp hy
    cases f
    case completed he => exact over_of_ending d.ordered h rfl he rfl
    case failed he => exact over_of_ending d.ordered h rfl he rfl
    case lost he => exact over_of_ending d.ordered h rfl he rfl
    case hung he => exact over_of_ending d.ordered h rfl he rfl
    case dispatchFailed => exact over_of_giveUp d.ordered h
    all_goals simp [Write.status] at hw

-- What a section newly decides does not overwrite how the run has ended.
theorem settled_follows (d : Decided s) (ht : s.tasks t = x :: rest)
    (h : Uncontended s (.run t env)) (f : Follows s x (.write run w)) (hr : s.rows run = some row)
    (hs : row.status.isActive = false) : w.overwrites row.status = false := by
  cases f
  case running ha =>
    have ⟨_, hw, _⟩ := Option.map_eq_some_iff.mp ha
    have ⟨hn, hn'⟩ := h.first _ _ _ _ _ _ _ _ rfl ht (hw ▸ rfl) hr
    cases h : row.status <;> simp_all [RunStatus.isActive, Write.overwrites]
  case poolRunning hc =>
    have ⟨hn, hn'⟩ := h.push _ _ _ _ _ _ _ _ _ rfl ht hc hr
    cases h : row.status <;> simp_all [RunStatus.isActive, Write.overwrites]
  case dispatchFailed =>
    have ⟨hn, hn'⟩ := h.giveUp _ _ _ _ _ _ _ rfl ht hr
    cases h : row.status <;> simp_all [RunStatus.isActive, Write.overwrites]
  case completed he =>
    have ⟨_, hw, ht⟩ := running_of_ending he rfl
    exact d.guarded hw ht hr hs
  case aborted he =>
    have ⟨_, hw, ht⟩ := running_of_ending he rfl
    exact d.guarded hw ht hr hs
  case failed => exact hs
  case lost => exact hs
  case hung => exact hs
  case userAborted ha hr' =>
    cases hr.symm.trans hr'
    simp [hs] at ha

theorem exec (d : Decided s) (h : s.tasks t = x :: rest) (hu : Uncontended s (.run t env)) :
    Decided (s.ran cfg env t x rest) where
  ordered := d.ordered.exec h
  ending  := by
    intro run w hp hw
    exact d.ending_exec h hp hw
  ended   := by
    intro run row hr hs
    have u : Updates env.now s x run _ := exec_rows cfg env s x run
    change (Controller.exec cfg env s x).1.rows run = some row at hr
    rw [hr] at u
    generalize ho : some row = o at u
    cases u
    case same => exact (d.ended run row ho.symm hs).exec h
    case inserted => cases ho; simp [RunRow.inserted] at hs
    case write w row₀ hx hr₀ =>
      cases ho
      rw [Write.status_apply] at hs
      split at hs
      case isTrue => exact (d.ending run w (hx ▸ .intro h) hs).exec h
      case isFalse => exact (d.ended run row₀ hr₀ hs).exec h
  settled := by
    intro run row w hr hs hy
    have u : Updates env.now s x run _ := exec_rows cfg env s x run
    change (Controller.exec cfg env s x).1.rows run = some row at hr
    rw [hr] at u
    generalize ho : some row = o at u
    cases u
    case inserted => cases ho; cases hs
    case same =>
      cases pending_of_ran hy h
      case inl hy => exact d.settled_follows h hu (exec_follows hy) ho.symm hs
      case inr hy => exact d.settled run row w ho.symm hs hy
    case write w₀ row₀ hx hr₀ =>
      cases ho
      subst hx
      rw [Write.status_apply] at hs ⊢
      cases hact : row₀.status.isActive
      case false =>
        have ho := d.settled run row₀ w₀ hr₀ hact (.intro h)
        rw [if_neg (by simp [ho])]
        cases pending_of_ran hy h
        case inl hy => cases hy
        case inr hy => exact d.settled run row₀ w hr₀ hact hy
      case true =>
        have ho : w₀.overwrites row₀.status := by
          by_contra ho
          simp [ho, hact] at hs
        rw [if_pos ho] at hs ⊢
        exact hu.alone _ _ run w₀ rest row₀ rfl h hr₀ hact hs w hy

theorem step (d : Decided s) (h : Uncontended s e) : Decided (s.step cfg e) := by
  have hs := steps cfg s e
  generalize s.step cfg e = s' at hs
  cases hs
  case quiet q => exact d.quiet q
  case run ht => exact d.exec ht h

theorem absorbs (d : Decided s) : Absorbs cfg s e := by
  intro run row hr hs
  have hst := steps cfg s e
  generalize s.step cfg e = s' at hst
  cases hst
  case quiet q => exact ⟨row, q.rows ▸ hr, rfl⟩
  case run t env x rest ht =>
    have u : Updates env.now s x run _ := exec_rows cfg env s x run
    change ∃ row', (Controller.exec cfg env s x).1.rows run = some row' ∧ _
    generalize (Controller.exec cfg env s x).1.rows run = o at u
    cases u
    case same => exact ⟨row, hr, rfl⟩
    case inserted _ _ hn => cases hr.symm.trans hn
    case write w row₀ hx hr₀ =>
      cases hr.symm.trans hr₀
      subst hx
      refine ⟨_, rfl, ?_⟩
      have ho := d.settled run row w hr hs (.intro ht)
      rw [Write.status_apply, if_neg (by simp [ho])]

end Decided

-- If rows are only ended while nobody else has decided otherwise, then a status that a run has
-- ended with stays.
theorem terminal_status_absorbing (cfg : Config) (rows : RunId → Option RunRow)
    (overrides : WorkerId → Option PoolOverride) (events : List Event)
    (h : Meets (State.step cfg) Uncontended (.init rows overrides) events) :
    Meets (State.step cfg) (Absorbs cfg) (.init rows overrides) events :=
  h.mono Decided.init (fun _ _ => Decided.step) fun _ _ d _ => d.absorbs

-- While the user aborts the run, its only worker completes.
def abortedTwice : List Event :=
  .trigger 0 (.spawnRun (sampleLaunch "r" 1)) :: go (.handler 0) 5 ++
    .connect 0 :: .receive 0 (registration "w" "r") :: go (.stream 0) 4 ++
    .trigger 1 (.abortRun "r") :: go (.handler 1) 1 ++
    .receive 0 (.runStatus "r" 2 "") :: go (.stream 0) 2 ++ go (.handler 1) 3

theorem terminal_status_absorbing_counterexample :
    ¬Meets (State.step (sampleConfig false)) (Absorbs (sampleConfig false)) sampleState
      abortedTwice := by
  intro h
  have ha := (meets_concat.mp (show Meets _ _ _ (abortedTwice.dropLast ++ [_]) from h)).right
  have ⟨row, hr, hs⟩ := ha "r" ⟨.completed, some 0, some 0, none⟩ rfl rfl
  cases hr
  cases hs

-- Only the given tasks run, and when one of them makes a status final, none of them has anything
-- else left to do.
def unrivalled (ts : List Task) (s : State) (e : Event) : Bool :=
  e.task.all (· ∈ ts) &&
    match e with
    | .run t _ =>
      match s.tasks t with
      | .write _ w :: rest =>
        w.status.isActive || rest.isEmpty && ts.all fun t' => t' = t || (s.tasks t').isEmpty
      | .assignmentFor run _ _ _ true :: _ => (s.rows run).all (·.status.isActive)
      | .cancelDispatchFailed .. :: _      => false
      | .pushAssignment .. :: _            => false
      | _                                  => true
    | _ => true

theorem uncontended_of_unrivalled {ts : List Task} (h : unrivalled ts s e)
    (hn : ∀ t ∉ ts, s.tasks t = []) : Uncontended s e where
  alone  := by
    rintro t env run w rest row rfl ht hr ha hw w' hp
    have ⟨_, h⟩ := Bool.and_eq_true_iff.mp h
    simp only [ht, hw, Bool.false_or, Bool.and_eq_true, List.all_eq_true] at h
    cases pending_update.mp hp
    case inl hp => simp_all
    case inr hp =>
      obtain ⟨t', hne, hp⟩ := hp
      by_cases hm : t' ∈ ts
      · simpa [hne, List.ne_nil_of_mem hp] using h.right t' hm
      · simp [hn t' hm] at hp
  giveUp := by
    rintro t env run m er rest row rfl ht
    simp [unrivalled, ht] at h
  first  := by
    rintro t env run worker tx place rest row rfl ht _ hr
    have ⟨_, h⟩ := Bool.and_eq_true_iff.mp h
    simp only [ht, hr, Option.all_some] at h
    cases hs : row.status <;> simp_all [RunStatus.isActive]
  push   := by
    rintro t env run worker tx a reserved rest row rfl ht
    simp [unrivalled, ht] at h

-- The only worker of a run completes, and the user does not abort it before.
def abortedLate : List Event :=
  .trigger 0 (.spawnRun (sampleLaunch "r" 1)) :: go (.handler 0) 5 ++
    .connect 0 :: .receive 0 (registration "w" "r") :: go (.stream 0) 4 ++
    .receive 0 (.runStatus "r" 2 "") :: go (.stream 0) 2 ++
    .trigger 1 (.abortRun "r") :: go (.handler 1) 2

theorem terminal_status_absorbing_late :
    Meets (State.step (sampleConfig false)) (Absorbs (sampleConfig false)) sampleState
      abortedLate := by
  have h : Meets (State.step (sampleConfig false))
      (unrivalled [.handler 0, .stream 0, .handler 1] · ·) sampleState abortedLate := by decide
  refine terminal_status_absorbing _ _ _ _ (h.mono (fun _ _ => rfl) (fun s e hn h t ht => ?_)
    fun s e hn h => uncontended_of_unrivalled h hn)
  have h := (Bool.and_eq_true_iff.mp h).left
  refine (step_tasks_of_ne fun he => ht ?_).trans (hn t ht)
  simpa [he] using h

end Controller
