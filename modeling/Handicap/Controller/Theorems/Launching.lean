import Handicap.Controller.Theorems.Follows

open Store Coordinator Api Tasks Trace

-- A launch goes through its sections one by one, and a run is launched once.
namespace Controller

variable {cfg : Config} {env : Ambient} {s s' : State} {t : Task} {x y : Section}
variable {rest : List Section} {run : RunId} {tx : Tx} {e : Event} {events : List Event}

section Continuations

variable {worker : WorkerId} {message : String} {l : Launch}

@[simp]
theorem fanOutAbort_launching (txs : List Tx) (reason : String) :
    (fanOutAbort run txs reason).filterMap Section.launching = [] := by
  simp [fanOutAbort, List.filterMap_map, Function.comp_def, Section.launching]

@[simp]
theorem startRunning_launching (b : Bool) :
    (startRunning run b).filterMap Section.launching = [] := by
  cases b <;> rfl

@[simp]
theorem closing_launching (stream : Stream) :
    (stream.closing tx).filterMap Section.launching = [] := by
  rw [Stream.closing]
  split
  case isTrue => cases stream.workerId <;> rfl
  case isFalse => split <;> rfl

@[simp]
theorem afterRegister_launching (o : RegisterOutcome) :
    (afterRegister run worker tx o).filterMap Section.launching = [] := by
  cases o <;> rfl

@[simp]
theorem afterAssignmentFor_launching (b : Bool) (a : Option Pb.RunAssignment) :
    (afterAssignmentFor run tx b a).filterMap Section.launching = [] := by
  cases a
  case none => rfl
  case some => exact startRunning_launching b

@[simp]
theorem afterRecordPhase_launching (o : Option Effect) :
    (afterRecordPhase run worker message o).filterMap Section.launching = [] := by
  unfold afterRecordPhase
  split <;> first | rfl | exact fanOutAbort_launching ..

@[simp]
theorem afterTornDown_launching (reason : String) (o : Option Effect) :
    (afterTornDown run reason message o).filterMap Section.launching = [] := by
  unfold afterTornDown
  split <;> first | rfl | exact fanOutAbort_launching ..

@[simp]
theorem afterMissing_launching (o : Option (ℕ × ℕ)) :
    (afterMissing run o).filterMap Section.launching = [] := by
  cases o <;> rfl

@[simp]
theorem afterGetRow_launching (o : Option RunRow) :
    (afterGetRow run o).filterMap Section.launching = [] := by
  cases o
  case none => rfl
  case some row => rw [afterGetRow]; split <;> rfl

theorem afterReserved_launching (workers : List (WorkerId × Tx))
    (counts : Option (Vector (ℕ × ℕ) workers.length)) :
    (afterReserved l workers counts).filterMap Section.launching = [l.run] := by
  rw [afterReserved]
  split
  case isTrue => rfl
  case isFalse => split <;> rfl

theorem afterReserveCapacity_launching (r : PoolReservation) :
    (afterReserveCapacity l r).filterMap Section.launching = [l.run] := by
  cases r
  case reserved => exact afterReserved_launching ..
  case insufficient => rfl

theorem disconnected_launching (assigned : Option RunId) :
    (assigned.map (Section.workerDisconnected · worker tx)).toList.filterMap Section.launching =
      [] := by
  cases assigned <;> rfl

-- A section of a launch is followed by at most one other.
theorem exec_launching (cfg : Config) (env : Ambient) (s : State) (x : Section) :
    ((exec cfg env s x).2.filterMap Section.launching).Sublist x.launching.toList ∨
      ∃ l, x = .insert l ∧ s.rows l.run = none ∧
        (exec cfg env s x).2.filterMap Section.launching = [l.run] := by
  cases x
  case insert l =>
    cases h : s.rows l.run
    case some => left; simp [exec, h, Section.launching]
    case none =>
      refine .inr ⟨l, rfl, h, ?_⟩
      simp only [exec, h]
      split_ifs <;> rfl
  all_goals left
  case leave tx => cases h : s.streams tx <;> simp [exec, h]
  case poolDisconnect => exact disconnected_launching _ ▸ List.nil_sublist _
  case poolExclude =>
    simp only [exec]
    split <;> simp [disconnected_launching, Section.launching]
  case poolSetControl =>
    simp only [exec]
    split
    case h_1 e _ => cases e.stable <;> exact List.nil_sublist _
    case h_2 => exact List.nil_sublist _
  case sweep => rw [exec]; split <;> exact List.nil_sublist _
  case precheck => simp only [exec]; split <;> exact List.nil_sublist _
  case reserveIdlePool => exact (afterReserved_launching ..) ▸ List.Sublist.refl _
  case reserveIdlePoolCapacity => exact (afterReserveCapacity_launching ..) ▸ List.Sublist.refl _
  case cancelDispatchFailed => simp [exec, Section.launching]
  case enqueue reserved => cases reserved <;> exact List.Sublist.refl _
  case dispatch => cases h : env.dispatchError <;> simp [exec, h, afterDispatch, Section.launching]
  case assignNext reserved =>
    cases reserved
    case nil => exact List.nil_sublist _
    case cons w reserved =>
      simp only [exec]
      cases (s.register _ w.1 w.2).1 <;> exact List.Sublist.refl _
  case poolAssignmentFor =>
    simp only [exec]
    generalize s.assignmentFor _ _ = a
    cases a <;> exact List.Sublist.refl _
  case pushAssignment =>
    rw [exec]
    split <;> simp [giveUpAssign, Section.launching]
  all_goals simp [exec, Section.launching]

end Continuations

theorem Follows.launching (f : Follows s x y) (h : y.launching = some run) :
    x.launching = some run ∨ ∃ l, x = .insert l ∧ l.run = run ∧ s.rows run = none := by
  cases f <;> try cases h
  case fanOut l n hr => exact .inr ⟨l, rfl, rfl, hr⟩
  case force l hr => exact .inr ⟨l, rfl, rfl, hr⟩
  case capacity l hr => exact .inr ⟨l, rfl, rfl, hr⟩
  case giveUp h => exact .inl h
  all_goals exact .inl rfl

-- Once a launch has enqueued its run or has given up, it does not go back.
theorem Follows.preparing (f : Follows s x y) (h : y.preparing = some run) :
    (x.preparing = some run ∧ ∀ l n counts reserved, x ≠ .enqueue l n counts reserved) ∨
      s.rows run = none := by
  cases f <;> try cases h
  case fanOut hr => exact .inr hr
  case force hr => exact .inr hr
  case capacity hr => exact .inr hr
  all_goals exact .inl ⟨rfl, by simp⟩

theorem exec_rows_isSome (h : (s.rows run).isSome) : ((exec cfg env s x).1.rows run).isSome := by
  have u := exec_rows cfg env s x run
  generalize (exec cfg env s x).1.rows run = o at u
  cases u <;> first | exact h | rfl

-- The state of the launches: each run is launched by one section at a time, which has its row
-- inserted, and no longer prepares it once it is enqueued.
structure Ordered (s : State) : Prop where
  exclusive : Exclusive Section.launching s.tasks
  launched  : ∀ x run, Pending s.tasks x → x.launching = some run → (s.rows run).isSome
  inserted  : ∀ run, (s.runs run).isSome → (s.rows run).isSome
  enqueued  : ∀ x run, Pending s.tasks x → (s.runs run).isSome → x.preparing ≠ some run

namespace Ordered

theorem init {rows : RunId → Option RunRow} {overrides : WorkerId → Option PoolOverride} :
    Ordered (.init rows overrides) where
  exclusive := ⟨fun _ => .nil, fun _ _ _ => List.disjoint_nil_left _⟩
  launched  := fun _ _ h => by simp [Pending, State.init] at h
  inserted  := fun _ h => by simp [State.init] at h
  enqueued  := fun _ _ _ h => by simp [State.init] at h

theorem quiet (o : Ordered s) (q : Quiet s s') : Ordered s' where
  exclusive := by
    cases q.tasks
    case inl ht => exact ht ▸ o.exclusive
    case inr ht =>
      obtain ⟨t, xs, _, hx, ht⟩ := ht
      exact ht ▸ o.exclusive.start fun x h => Section.launching_of_starts (hx x h)
  launched  := by
    intro x run h hx
    rw [q.rows]
    refine o.launched x run ((q.pending h).resolve_left fun hs => ?_) hx
    simp [Section.launching_of_starts hs] at hx
  inserted  := by
    rw [q.runs, q.rows]
    exact o.inserted
  enqueued  := by
    intro x run h hr hx
    rw [q.runs] at hr
    refine o.enqueued x run ((q.pending h).resolve_left fun hs => ?_) hr hx
    simpa [Section.launching_of_starts hs] using Section.launching_of_preparing hx

theorem exec (o : Ordered s) (h : s.tasks t = x :: rest) :
    Ordered (s.ran cfg env t x rest) where
  exclusive := by
    rw [ran_tasks]
    cases exec_launching cfg env s x
    case inl hs => exact o.exclusive.run h hs
    case inr hi =>
      obtain ⟨l, _, hr, hs⟩ := hi
      refine o.exclusive.take h hs fun y hy hl => ?_
      simpa [hr] using o.launched y l.run hy hl
  launched  := by
    intro y run hy hl
    change ((Controller.exec cfg env s x).1.rows run).isSome
    cases pending_of_ran hy h
    case inr hy => exact exec_rows_isSome (o.launched y run hy hl)
    case inl hy =>
      cases (exec_follows hy).launching hl
      case inl hx => exact exec_rows_isSome (o.launched x run (.intro h) hx)
      case inr hi =>
        obtain ⟨l, rfl, rfl, hr⟩ := hi
        simp [Controller.exec, hr, State.setRow]
  inserted  := by
    intro run hr
    change ((Controller.exec cfg env s x).1.rows run).isSome
    have c : Changes s x run _ := exec_runs cfg env s x run
    change ((Controller.exec cfg env s x).1.runs run).isSome at hr
    generalize (Controller.exec cfg env s x).1.runs run = r at c hr
    cases c
    case same => exact exec_rows_isSome (o.inserted run hr)
    case call hw => exact exec_rows_isSome (o.inserted run (hw ▸ rfl))
    case loaded hw => exact exec_rows_isSome (o.inserted run (hw ▸ rfl))
    case removed => cases hr
    case enqueued hx hl => exact exec_rows_isSome (o.launched x run (.intro h) (hx ▸ hl ▸ rfl))
  enqueued  := by
    intro y run hy hr hp
    have c : Changes s x run _ := exec_runs cfg env s x run
    change ((Controller.exec cfg env s x).1.runs run).isSome at hr
    generalize (Controller.exec cfg env s x).1.runs run = r at c hr
    have old (hr : (s.runs run).isSome) : False := by
      cases pending_of_ran hy h
      case inr hy => exact o.enqueued y run hy hr hp
      case inl hy =>
        cases (exec_follows hy).preparing hp
        case inl hx => exact o.enqueued x run (.intro h) hr hx.left
        case inr hn => simpa [hn] using o.inserted run hr
    cases c
    case same => exact old hr
    case call hw => exact old (hw ▸ rfl)
    case loaded hw => exact old (hw ▸ rfl)
    case removed => cases hr
    case enqueued l n counts reserved hx hl =>
      have hx' : x.launching = some run := by rw [hx, ← hl]; rfl
      have hy := o.exclusive.release h hx' (ran_tasks ▸ hy) (Section.launching_of_preparing hp)
      cases (exec_follows hy).preparing hp
      case inl hx' => exact hx'.right l n counts reserved hx
      case inr hn => simpa [hn] using o.launched x run (.intro h) hx'

end Ordered

-- The run cannot be handed out any more.
structure Over (s : State) (run : RunId) : Prop where
  terminal : ∀ rw, s.runs run = some rw → rw.terminal
  inserted : (s.rows run).isSome
  enqueued : ∀ x, Pending s.tasks x → x.preparing ≠ some run

namespace Over

theorem quiet (o : Over s run) (q : Quiet s s') : Over s' run where
  terminal := by
    rw [q.runs]
    exact o.terminal
  inserted := by
    rw [q.rows]
    exact o.inserted
  enqueued := by
    intro x h hx
    refine o.enqueued x ((q.pending h).resolve_left fun hs => ?_) hx
    simpa [Section.launching_of_starts hs] using Section.launching_of_preparing hx

theorem exec (o : Over s run) (h : s.tasks t = x :: rest) :
    Over (s.ran cfg env t x rest) run where
  terminal := by
    intro rw hr
    have c : Changes s x run _ := exec_runs cfg env s x run
    change (Controller.exec cfg env s x).1.runs run = some rw at hr
    rw [hr] at c
    generalize ho : some rw = r at c
    cases c
    case same => exact o.terminal rw ho.symm
    case call rw' hc hw =>
      cases ho
      exact (rw'.exec_step _).preserves_terminal (o.terminal rw' hw)
    case loaded rw' hx hw =>
      cases ho
      exact o.terminal rw' hw
    case removed => cases ho
    case enqueued hx hl => exact absurd (hx ▸ hl ▸ rfl) (o.enqueued x (.intro h))
  inserted := exec_rows_isSome o.inserted
  enqueued := by
    intro y hy hp
    cases pending_of_ran hy h
    case inr hy => exact o.enqueued y hy hp
    case inl hy =>
      cases (exec_follows hy).preparing hp
      case inl hx => exact o.enqueued x (.intro h) hx.left
      case inr hn => simpa [hn] using o.inserted

theorem step (o : Over s run) : Over (s.step cfg e) run := by
  have hs := steps cfg s e
  generalize s.step cfg e = s' at hs
  cases hs
  case quiet q => exact o.quiet q
  case run h => exact o.exec h

end Over

-- What the runs on fixed inputs below are made of: a launch of some virtual users, and a controller
-- that dispatches workers or has a pool.
section Samples

def sampleLaunch (run : RunId) (vus : U32) : Launch where
  run          := run
  metas        := []
  scenarioYaml := ""
  env          := []
  force        := false
  profile      :=
    { vus, rampUpSeconds := 0, durationSeconds := 10, loopBreakdownCap := 256
      httpTimeoutSeconds := 30, dataBinding := none, dataBindings := [], criteria := none
      thinkTime := none, thinkSeed := none, targetRps := none, maxInFlight := none
      stages := none, measurePhases := false, vuStages := none, rampDown := none
      gracefulRampDownSeconds := none, connectTimeoutSeconds := none, workerCount := none
      applyScenarioThinkTime := true }

-- A worker runs one virtual user.
def sampleConfig (poolMode : Bool) : Config :=
  ⟨none, poolMode, ⟨1, 64, 100000, 8, 1000000⟩⟩

def sampleState : State :=
  .init (fun _ => none) (fun _ => none)

def registration (worker : WorkerId) (run : RunId) : WorkerMessage :=
  .register ⟨worker, run, 1, "", "", false⟩

-- The task runs its next sections.
def go (t : Task) (n : ℕ) : List Event :=
  List.replicate n (.run t ⟨0, [], false, none⟩)

-- Only the given tasks have anything to do, and only the given runs are in the map.
structure Confined (ts : List Task) (runs : List RunId) (s : State) : Prop where
  tasks : ∀ t ∉ ts, s.tasks t = []
  runs  : ∀ run ∉ runs, s.runs run = none

def confines (ts : List Task) (runs : List RunId) (s : State) (e : Event) : Bool :=
  e.task.all (· ∈ ts) &&
    match s.next e with
    | some (.enqueue l _ _ _) => l.run ∈ runs
    | _                       => true

theorem Confined.step {ts : List Task} {runs : List RunId} (c : Confined ts runs s)
    (h : confines ts runs s e) : Confined ts runs (s.step cfg e) := by
  have ⟨ht, hn⟩ := Bool.and_eq_true_iff.mp h
  refine ⟨fun t hm => ?_, fun run hm => ?_⟩
  · refine (step_tasks_of_ne fun he => hm ?_).trans (c.tasks t hm)
    simpa [he] using ht
  · have hs := steps cfg s e
    generalize s.step cfg e = s' at hs
    cases hs
    case quiet q => exact q.runs ▸ c.runs run hm
    case run t env x rest ht =>
      have hc : Changes s x run _ := exec_runs cfg env s x run
      change (exec cfg env s x).1.runs run = none
      generalize (exec cfg env s x).1.runs run = o at hc
      have hr := c.runs run hm
      cases hc
      case same => exact hr
      case call hw => cases hr.symm.trans hw
      case loaded hw => cases hr.symm.trans hw
      case removed => rfl
      case enqueued l _ _ _ hx hl =>
        subst hx hl
        simp [next_run ht, hm] at hn

end Samples

end Controller
