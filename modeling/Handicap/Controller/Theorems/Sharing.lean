import Handicap.Controller.Theorems.Reservations

open Store Coordinator Api Tasks Trace

-- To which runs a worker of the pool belongs.
namespace Controller

-- The worker is registered on the run, which is not over, with a phase of the given kind.
def Registered (counts : Pb.Phase → Bool) (s : State) (worker : WorkerId) (run : RunId) : Prop :=
  ∃ rw e, s.runs run = some rw ∧ rw.terminal = false ∧ rw.workers.lookup worker = some e ∧
    counts e.phase

def anyPhase (_ : Pb.Phase) : Bool :=
  true

def goingOn (phase : Pb.Phase) : Bool :=
  !phase.isTerminal

-- A worker that is registered on a run with such a phase is neither reserved for, nor registered
-- on, another run that is not over.
def Apart (counts others : Pb.Phase → Bool) (s : State) : Prop :=
  ∀ worker run, Registered counts s worker run →
    (∀ e run', s.pool.lookup worker = some e → e.assignedRun = some run' →
      (∀ rw, s.runs run' = some rw → rw.terminal = false) → run' = run) ∧
    ∀ run', Registered others s worker run' → run' = run

-- Only the run that a worker goes on with has to be the only one.
abbrev Unshared (s : State) : Prop :=
  Apart goingOn anyPhase s

-- The worker is registered on the run, or its launch has reserved the worker.
def Held (counts : Pb.Phase → Bool) (s : State) (worker : WorkerId) (run : RunId) : Prop :=
  Registered counts s worker run ∨
    ∃ x tx, Pending s.tasks x ∧ x.launching = some run ∧ (worker, tx) ∈ x.reserved

-- A worker joins the pool only while no run holds it, its reports do not bring back a phase that
-- counts, and it registers on a run by itself only if it belongs to no other run.
structure Orderly (counts : Pb.Phase → Bool) (s : State) (e : Event) : Prop where
  idle     : ∀ r tx restored run, s.next e = some (.poolRegisterIdle r tx restored) →
    ¬Held counts s r.workerId run
  report   : ∀ run worker phase message rw entry,
    s.next e = some (.recordPhase run worker phase message) → s.runs run = some rw →
    rw.terminal = false → rw.workers.lookup worker = some entry → counts (phaseOf phase) →
    counts entry.phase
  register : ∀ run worker tx rw, s.next e = some (.register run worker tx) →
    s.runs run = some rw → rw.terminal = false → rw.workers.lookup worker = none →
    s.pool.lookup worker = none ∧ ∀ run', Held counts s worker run' → run' = run

variable {counts : Pb.Phase → Bool} {cfg : Config} {env : Ambient} {s s' : State} {t : Task}
variable {x y : Section}
variable {rest : List Section} {run : RunId} {tx : Tx} {worker : WorkerId} {e : Event}

-- A worker that is held by a run is held by no other one, and its entry names the run.
structure Owned (counts : Pb.Phase → Bool) (s : State) : Prop where
  ordered  : Ordered s
  released : ∀ run workers m er, Pending s.tasks (.releasePoolReservation run workers m er) →
    s.runs run = none
  unique   : ∀ worker run run', Held counts s worker run → Held counts s worker run' → run' = run
  assigned : ∀ worker run e, Held counts s worker run → s.pool.lookup worker = some e →
    e.assignedRun = some run

theorem Registered.of_call {rw : RunWorkers} {c : Call} (hc : x.calls = some (run, c))
    (h : s.tasks t = x :: rest) (ho : Orderly counts s (.run t env)) (hr : s.runs run = some rw)
    (hb : ∃ e, (rw.exec c).2.terminal = false ∧ (rw.exec c).2.workers.lookup worker = some e ∧
      counts e.phase) :
    Held counts s worker run ∨ ∃ tx, x = .register run worker tx ∧ s.pool.lookup worker = none ∧
      ∀ run', Held counts s worker run' → run' = run := by
  obtain ⟨e, ht, he, hp⟩ := hb
  have hs := rw.exec_step c
  generalize (rw.exec c).1 = f at hs
  generalize (rw.exec c).2 = rw' at hs ht he
  have old {e : WorkerEntry} (ht : rw.terminal = false) (he : rw.workers.lookup worker = some e)
      (hp : counts e.phase) : Held counts s worker run :=
    .inl ⟨rw, e, hr, ht, he, hp⟩
  cases hs
  case register w tx o r =>
    cases r
    case rejected => exact .inl (old ht he hp)
    case resent => exact .inl (old ht he hp)
    case admitted hn ht' hl =>
      rw [RunWorkers.lookup_addWorker] at he
      split at he
      case isFalse => exact .inl (old ht' he hp)
      case isTrue hw =>
        subst hw
        cases x <;> try cases hc
        case register => exact .inr ⟨_, rfl, ho.register _ _ _ _ (next_run h) hr ht' hl⟩
        case assignNext reserved =>
          cases reserved <;> cases hc
          exact .inl (.inr ⟨_, _, .intro h, rfl, List.mem_cons_self⟩)
  case recordPhase w phase f r =>
    have hr' : rw.terminal = false ∧ rw' = rw.setPhase w (phaseOf phase) := by
      cases r <;> simp_all
    obtain ⟨ht', rfl⟩ := hr'
    rw [RunWorkers.lookup_setPhase] at he
    split at he
    case isFalse => exact .inl (old ht' he hp)
    case isTrue hw =>
      subst hw
      obtain ⟨e', he', rfl⟩ := Option.map_eq_some_iff.mp he
      cases x <;> try cases hc
      case recordPhase =>
        exact .inl (old ht' he' (ho.report _ _ _ _ _ _ (next_run h) hr ht' he' hp))
      case assignNext reserved => cases reserved <;> cases hc
  case workerDisconnected d =>
    cases d
    case harmless => exact .inl (old ht he hp)
    case lost => simp at ht
  case failRunHung d =>
    cases d
    case ended => exact .inl (old ht he hp)
    case hung => simp at ht

-- A run comes to hold a worker by reserving it, unless the worker registers by itself.
theorem Held.of_ran (h : s.tasks t = x :: rest) (ho : Orderly counts s (.run t env))
    (hh : Held counts (s.ran cfg env t x rest) worker run) :
    Held counts s worker run ∨
      (∃ tx, Pool.Reserves s.pool (exec cfg env s x).1.pool run worker tx) ∨
      ∃ tx, x = .register run worker tx ∧ s.pool.lookup worker = none ∧
        ∀ run', Held counts s worker run' → run' = run := by
  cases hh
  case inl hb =>
    obtain ⟨rw, e, hr, ht, he, hp⟩ := hb
    have c : Changes s x run _ := exec_runs cfg env s x run
    change (exec cfg env s x).1.runs run = some rw at hr
    rw [hr] at c
    generalize ho' : some rw = o at c
    cases c
    case same => exact .inl (.inl ⟨rw, e, ho'.symm, ht, he, hp⟩)
    case call hc hw =>
      cases ho'
      exact (Registered.of_call hc h ho hw ⟨e, ht, he, hp⟩).imp_right .inr
    case loaded rw' hx hw =>
      cases ho'
      exact .inl (.inl ⟨rw', e, hw, ht, he, hp⟩)
    case removed => cases ho'
    case enqueued =>
      cases ho'
      simp [Launch.enqueued, RunWorkers.new] at he
  case inr hp =>
    obtain ⟨y, tx, hy, hl, hw⟩ := hp
    cases pending_of_ran hy h
    case inr hy => exact .inl (.inr ⟨y, tx, hy, hl, hw⟩)
    case inl hy =>
      have ⟨run', hx, hy', hw⟩ := exec_reserved hy hw
      cases hl.symm.trans hy'
      cases hw
      case inl hw => exact .inl (.inr ⟨x, tx, .intro h, hx, hw⟩)
      case inr hw => exact .inr (.inl ⟨tx, hw⟩)

namespace Owned

theorem init {rows : RunId → Option RunRow} {overrides : WorkerId → Option PoolOverride} :
    Owned counts (.init rows overrides) := by
  have hn worker run : ¬Held counts (.init rows overrides) worker run := by
    rintro (⟨_, _, h, _⟩ | ⟨_, _, ⟨_, h⟩, _⟩) <;> cases h
  exact ⟨.init, fun _ _ _ _ _ => rfl, fun _ _ _ h => absurd h (hn _ _),
    fun _ _ _ h => absurd h (hn _ _)⟩

theorem held_of_quiet (q : Quiet s s') (h : Held counts s' worker run) : Held counts s worker run := by
  refine h.imp (fun hb => ?_) fun hp => ?_
  · obtain ⟨rw, e, hr, hb⟩ := hb
    exact ⟨rw, e, q.runs ▸ hr, hb⟩
  · obtain ⟨x, tx, hx, hl, hw⟩ := hp
    refine ⟨x, tx, (q.pending hx).resolve_left fun hs => ?_, hl, hw⟩
    simp [Section.launching_of_starts hs] at hl

theorem quiet (o : Owned counts s) (q : Quiet s s') : Owned counts s' where
  ordered  := o.ordered.quiet q
  released := fun run workers m er h =>
    q.runs ▸ o.released run workers m er ((q.pending h).resolve_left (by simp [Section.starts]))
  unique   := fun worker run run' h h' =>
    o.unique worker run run' (held_of_quiet q h) (held_of_quiet q h')
  assigned := fun worker run e h he =>
    o.assigned worker run e (held_of_quiet q h) (q.pool ▸ he)

theorem not_idle (o : Owned counts s) (h : Held counts s worker run) {entry : PoolEntry}
    (he : s.pool.lookup worker = some entry) : entry.isIdle = false := by
  simp [PoolEntry.isIdle, o.assigned worker run entry h he]

-- A run that releases its reservations holds nobody afterwards.
theorem released_not_held (o : Owned counts s) {workers : List (WorkerId × Tx)} {m : String}
    {er : ApiError} (h : s.tasks t = .releasePoolReservation run workers m er :: rest) :
    ¬Held counts (s.ran cfg env t (.releasePoolReservation run workers m er) rest) worker run := by
  rintro (hb | ⟨y, tx, hy, hl, hw⟩)
  · obtain ⟨rw, _, hr, _⟩ := hb
    cases (o.released run workers m er (.intro h)).symm.trans hr
  · have hy := o.ordered.exclusive.release h rfl (ran_tasks ▸ hy) hl
    cases List.mem_singleton.mp hy
    cases hw

theorem exec (o : Owned counts s) (h : s.tasks t = x :: rest) (ho : Orderly counts s (.run t env)) :
    Owned counts (s.ran cfg env t x rest) where
  ordered  := o.ordered.exec h
  released := by
    intro run workers m er hp
    have c : Changes s x run _ := exec_runs cfg env s x run
    change (Controller.exec cfg env s x).1.runs run = none
    generalize (Controller.exec cfg env s x).1.runs run = r at c
    have hn : s.runs run = none := by
      cases pending_of_ran hp h
      case inr hp => exact o.released run workers m er hp
      case inl hy =>
        rw [← Option.not_isSome_iff_eq_none]
        intro hs
        refine o.ordered.enqueued x run (.intro h) hs ?_
        cases exec_follows hy <;> rfl
    cases c
    case same => exact hn
    case call hw => cases hn.symm.trans hw
    case loaded hw => cases hn.symm.trans hw
    case removed => rfl
    case enqueued hx hl =>
      subst hx
      have hy := o.ordered.exclusive.release h (congrArg some hl) (ran_tasks ▸ hp) rfl
      cases exec_follows hy
  unique   := by
    intro worker run run' hh hh'
    have apart {run run' tx} (hh : Held counts s worker run)
        (hr : Pool.Reserves s.pool (Controller.exec cfg env s x).1.pool run' worker tx) :
        False := by
      obtain ⟨e, he, hi, _⟩ := hr
      simp [o.not_idle hh he] at hi
    cases hh.of_ran h ho
    case inl hh =>
      rcases hh'.of_ran h ho with hh' | ⟨_, hr'⟩ | ⟨_, _, _, hu'⟩
      · exact o.unique worker run run' hh hh'
      · exact (apart hh hr').elim
      · exact (hu' run hh).symm
    case inr hn =>
      rcases hn with ⟨_, hr⟩ | ⟨_, rfl, hn, hu⟩
      · rcases hh'.of_ran h ho with hh' | ⟨_, hr'⟩ | ⟨_, _, hn', _⟩
        · exact (apart hh' hr).elim
        · exact hr.unique hr'
        · cases hr.choose_spec.left.symm.trans hn'
      · rcases hh'.of_ran h ho with hh' | ⟨_, _, he, _⟩ | ⟨_, hx, _, _⟩
        · exact hu run' hh'
        · cases he.symm.trans hn
        · cases hx
          rfl
  assigned := by
    intro worker run e hh he
    have c : PoolChanges s x worker _ := exec_pool cfg env s x worker
    change (Controller.exec cfg env s x).1.pool.lookup worker = some e at he
    rw [he] at c
    rcases hh.of_ran h ho with hb | ⟨_, _, _, _, _, hr⟩ | ⟨_, rfl, hn, _⟩
    · generalize ho' : some e = o' at c
      cases c
      case same => exact o.assigned worker run e hb ho'.symm
      case registered r tx restored e hx hr _ _ =>
        subst hr
        exact absurd hb (ho.idle r tx restored run (hx ▸ next_run h))
      case reserved hl hi => simp [o.not_idle hb hl] at hi
      case released run' workers m er e hx hm he' =>
        subst hx
        obtain ⟨⟨_, tx⟩, hw, rfl⟩ := List.mem_map.mp hm
        cases o.unique _ run run' hb (.inr ⟨_, tx, .intro h, rfl, hw⟩)
        exact (released_not_held o h hh).elim
      case disconnected => cases ho'
      case excluded => cases ho'
      case controlled he' _ ha =>
        cases ho'
        exact ha ▸ o.assigned worker run _ hb he'
    · cases he.symm.trans hr
      rfl
    · cases he.symm.trans hn

theorem step (o : Owned counts s) (h : Orderly counts s e) : Owned counts (s.step cfg e) := by
  have hs := steps cfg s e
  generalize s.step cfg e = s' at hs
  cases hs
  case quiet q => exact o.quiet q
  case run ht => exact o.exec ht h

theorem apart (o : Owned counts s) : Apart counts counts s := by
  intro worker run hb
  refine ⟨fun e run' he ha _ => ?_, fun run' hb' => o.unique worker run run' (.inl hb) (.inl hb')⟩
  exact Option.some.inj (ha.symm.trans (o.assigned worker run e (.inl hb) he))

end Owned

-- With `goingOn`, workers that have reported a terminal phase may join the pool again, and a worker
-- is still not going on with two runs.
theorem apart_of_orderly (counts : Pb.Phase → Bool) (cfg : Config) (rows : RunId → Option RunRow)
    (overrides : WorkerId → Option PoolOverride) (events : List Event)
    (h : Meets (State.step cfg) (Orderly counts) (.init rows overrides) events) :
    Apart counts counts ((State.init rows overrides).after cfg events) :=
  (h.invariant Owned.init fun _ _ => Owned.step).apart

-- If workers join the pool only while they are registered on no run, then no worker is shared by
-- two runs.
theorem pool_worker_unshared (cfg : Config) (rows : RunId → Option RunRow)
    (overrides : WorkerId → Option PoolOverride) (events : List Event)
    (h : Meets (State.step cfg) (Orderly anyPhase) (.init rows overrides) events) :
    Unshared ((State.init rows overrides).after cfg events) := by
  intro worker run hb
  obtain ⟨rw, e, hr, ht, he, _⟩ := hb
  exact apart_of_orderly anyPhase cfg rows overrides events h worker run ⟨rw, e, hr, ht, he, rfl⟩

-- A worker that is busy with one run joins the pool again, and is assigned to another run.
def busyWorker : List Event :=
  .connect 0 :: .receive 0 (registration "w" "") :: go (.stream 0) 2 ++
    .trigger 0 (.spawnRun (sampleLaunch "a" 1)) :: go (.handler 0) 10 ++
    .connect 1 :: .receive 1 (registration "w" "") :: go (.stream 1) 2 ++
    .trigger 1 (.spawnRun (sampleLaunch "b" 1)) :: go (.handler 1) 10

theorem pool_worker_unshared_counterexample :
    ¬Unshared (sampleState.after (sampleConfig true) busyWorker) := by
  intro h
  have hb := (h "w" "a" ⟨_, ⟨0, 0, 1, 0, .started⟩, rfl, rfl, rfl, rfl⟩).right "b"
    ⟨_, ⟨0, 0, 1, 1, .started⟩, rfl, rfl, rfl, rfl⟩
  revert hb
  decide

-- All runs are over and no launch holds a reservation when a worker joins the pool.
def unheld (ts : List Task) (runs : List RunId) (s : State) (e : Event) : Bool :=
  confines ts runs s e &&
    match s.next e with
    | some (.poolRegisterIdle ..) =>
      runs.all (fun run => (s.runs run).all (·.terminal)) &&
        ts.all fun t => (s.tasks t).all (·.reserved.isEmpty)
    | some (.register ..) => false
    | _                   => true

theorem orderly_of_unheld {ts : List Task} {runs : List RunId} (c : Confined ts runs s)
    (h : unheld ts runs s e) : Orderly anyPhase s e where
  idle     := by
    intro r tx restored run hn hh
    have ⟨_, h⟩ := Bool.and_eq_true_iff.mp h
    simp only [hn, Bool.and_eq_true, List.all_eq_true] at h
    rcases hh with ⟨rw, _, hr, ht, _⟩ | ⟨x, _, ⟨t, hx⟩, _, hw⟩
    · by_cases hm : run ∈ runs
      · simpa [hr, ht] using h.left run hm
      · cases (c.runs run hm).symm.trans hr
    · by_cases hm : t ∈ ts
      · simp [List.isEmpty_iff.mp (h.right t hm x hx)] at hw
      · simp [c.tasks t hm] at hx
  report   := fun _ _ _ _ _ _ _ _ _ _ _ => rfl
  register := by
    intro run worker tx rw hn
    simp [unheld, hn] at h

-- A worker completes one run, joins the pool again and is assigned to another run.
def freeWorker : List Event :=
  .connect 0 :: .receive 0 (registration "w" "") :: go (.stream 0) 2 ++
    .trigger 0 (.spawnRun (sampleLaunch "a" 1)) :: go (.handler 0) 10 ++
    .receive 0 (.runStatus "a" 2 "") :: go (.stream 0) 2 ++
    .connect 1 :: .receive 1 (registration "w" "") :: go (.stream 1) 2 ++
    .trigger 1 (.spawnRun (sampleLaunch "b" 1)) :: go (.handler 1) 10

theorem pool_worker_unshared_free : Unshared (sampleState.after (sampleConfig true) freeWorker) := by
  have h : Meets (State.step (sampleConfig true))
      (unheld [.stream 0, .stream 1, .handler 0, .handler 1] ["a", "b"] · ·) sampleState
      freeWorker := by decide
  refine pool_worker_unshared _ _ _ _ (h.mono (I := Confined _ _) ⟨fun _ _ => rfl, fun _ _ => rfl⟩
    (fun s e c h => c.step (Bool.and_eq_true_iff.mp h).left) fun s e c h => orderly_of_unheld c h)

end Controller
