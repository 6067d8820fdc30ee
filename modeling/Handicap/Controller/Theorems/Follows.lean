import Handicap.Controller.Theorems.Step

open Store Coordinator Api Tasks Trace

-- Which sections lead to which, and under which conditions.
namespace Controller

namespace Section

variable {x : Section} {run : RunId}

-- The run whose launch a section belongs to, once its row is inserted and before it is enqueued.
def preparing : Section → Option RunId
  | reserveIdlePool l         => some l.run
  | reserveIdlePoolCapacity l => some l.run
  | enqueue l _ _ _           => some l.run
  | _                         => none

-- The run whose launch a section belongs to, once its row is inserted.
def launching : Section → Option RunId
  | reserveIdlePool l                => some l.run
  | reserveIdlePoolCapacity l        => some l.run
  | enqueue l _ _ _                  => some l.run
  | releasePoolReservation run _ _ _ => some run
  | cancelDispatchFailed run _ _     => some run
  | dispatch run _                   => some run
  | assignNext run _                 => some run
  | poolAssignmentFor run _ _ _ _ _  => some run
  | pushAssignment run _ _ _ _ _     => some run
  | _                                => none

-- The stream whose task a section belongs to, unless it is about what comes of a message.
def home : Section → Option Tx
  | send tx (.assignment _)    => some tx
  | register _ _ tx            => some tx
  | assignmentFor _ _ tx _ _   => some tx
  | leave tx                   => some tx
  | getPoolOverride _ tx       => some tx
  | poolRegisterIdle _ tx _    => some tx
  | _                          => none

theorem launching_of_preparing (h : x.preparing = some run) : x.launching = some run := by
  cases x <;> first | exact h | cases h

theorem launching_of_starts (h : x.starts) : x.launching = none := by
  cases x <;> first | rfl | cases h

end Section

inductive Follows (s : State) : Section → Section → Prop
  -- The updates of the row.
  | running {run worker tx place a} :
    s.assignmentFor run place = some a →
    Follows s (.assignmentFor run worker tx place true) (.write run (.setStatus .running))
  | poolRunning {run worker tx a rest} :
    s.closed tx = false →
    Follows s (.pushAssignment run worker tx a true rest) (.write run (.setStatus .running))
  | completed {run worker phase message} :
    s.effect run (.recordPhase worker phase) = some (.recorded .completed) →
    Follows s (.recordPhase run worker phase message) (.write run (.setStatus .completed))
  | aborted {run worker phase message} :
    s.effect run (.recordPhase worker phase) = some (.recorded .aborted) →
    Follows s (.recordPhase run worker phase message) (.write run (.setStatus .aborted))
  | failed {run worker phase message siblings m} :
    s.effect run (.recordPhase worker phase) = some (.recorded (.failed siblings)) →
    Follows s (.recordPhase run worker phase message) (.write run (.markFailedIfActive m))
  | lost {run worker conn siblings m} :
    s.effect run (.workerDisconnected worker) = some (.tornDown (some siblings)) →
    Follows s (.workerDisconnected run worker conn) (.write run (.markFailedIfActive m))
  | hung {run reason abortMessage siblings m} :
    s.effect run .failRunHung = some (.tornDown (some siblings)) →
    Follows s (.failRunHung run reason abortMessage) (.write run (.markFailedIfActive m))
  | dispatchFailed {run message e} :
    Follows s (.cancelDispatchFailed run message e) (.write run (.markFailed message))
  | userAborted {run row} :
    s.rows run = some row → row.status.isActive →
    Follows s (.abortRun run) (.write run .markAborted)
  -- Messages and replies.
  | sendAbort {x tx run reason} : Follows s x (.send tx (.abort run reason))
  | sendAssignment {run worker tx place b a} :
    s.assignmentFor run place = some a →
    Follows s (.assignmentFor run worker tx place b) (.send tx (.assignment a))
  | trySend {worker reason tx} :
    Follows s (.poolExclude worker reason) (.trySend tx (.disconnect reason))
  | confirm {run row} :
    s.rows run = some row → row.status.isActive →
    Follows s (.abortRun run) (.reply (.abortRun run (.ok ())))
  | reply {x r} : (∀ run, r ≠ .abortRun run (.ok ())) → Follows s x (.reply r)
  -- A stream.
  | assigned {run worker tx shardIndex shardCount vuOffset vuCount first} :
    s.effect run (.register worker tx) =
      some (.registered (.assigned shardIndex shardCount vuOffset vuCount first)) →
    Follows s (.register run worker tx)
      (.assignmentFor run worker tx ⟨shardIndex, shardCount, vuOffset, vuCount⟩ first)
  | resent {run worker tx place} :
    Follows s (.register run worker tx) (.assignmentFor run worker tx place false)
  | leave {x tx} : x.home = some tx → Follows s x (.leave tx)
  | poolRegisterIdle {r tx restored} :
    Follows s (.getPoolOverride r tx) (.poolRegisterIdle r tx restored)
  | closePool {tx stream worker} :
    s.streams tx = some stream → stream.poolConn → stream.workerId = some worker →
    Follows s (.leave tx) (.poolDisconnect worker tx)
  | closeRun {tx stream run worker} :
    s.streams tx = some stream → stream.poolConn = false → stream.runId = some run →
    stream.workerId = some worker → Follows s (.leave tx) (.workerDisconnected run worker tx)
  -- The end of a run.
  | missing {run reason abortMessage} :
    Follows s (.failIncompleteRegistration run) (.failRunHung run reason abortMessage)
  | abort {run} : Follows s (.abortRun run) (.abort run)
  | disconnect {run worker conn e} :
    s.pool.lookup worker = some e → e.assignedRun = some run →
    Follows s (.poolDisconnect worker conn) (.workerDisconnected run worker conn)
  | exclude {run worker reason e} :
    s.pool.lookup worker = some e → e.assignedRun = some run →
    Follows s (.poolExclude worker reason) (.workerDisconnected run worker e.tx)
  | sweep {worker tx isStale} :
    Follows s (.sweep worker tx isStale) (.poolDisconnect worker tx)
  | putPoolOverride {worker d c l o} :
    Follows s (.poolSetControl worker d c l) (.putPoolOverride worker o)
  -- A launch.
  | insert {l} : Follows s (.precheck l) (.insert l)
  | fanOut {l n} : s.rows l.run = none → Follows s (.insert l) (.enqueue l n none none)
  | force {l} : s.rows l.run = none → Follows s (.insert l) (.reserveIdlePool l)
  | capacity {l} : s.rows l.run = none → Follows s (.insert l) (.reserveIdlePoolCapacity l)
  | enqueueForce {l order workers} :
    (s.pool.reserveIdlePool order l.run l.profile.poolWorkerCap).1 = workers →
    Follows s (.reserveIdlePool l) (.enqueue l workers.length none (some workers))
  | releaseForce {l order workers message e} :
    (s.pool.reserveIdlePool order l.run l.profile.poolWorkerCap).1 = workers →
    Follows s (.reserveIdlePool l) (.releasePoolReservation l.run workers message e)
  | enqueueCapacity {l workers counts} :
    (s.pool.reserveIdlePoolCapacity l.run l.profile.poolWorkerCap
      l.profile.concurrencyDemand).1 = .reserved workers counts →
    Follows s (.reserveIdlePoolCapacity l)
      (.enqueue l workers.length (some counts) (some workers))
  | releaseCapacity {l workers counts message e} :
    (s.pool.reserveIdlePoolCapacity l.run l.profile.poolWorkerCap
      l.profile.concurrencyDemand).1 = .reserved workers counts →
    Follows s (.reserveIdlePoolCapacity l) (.releasePoolReservation l.run workers message e)
  | assign {l n counts reserved} :
    Follows s (.enqueue l n counts (some reserved)) (.assignNext l.run reserved)
  | dispatch {l n counts} : Follows s (.enqueue l n counts none) (.dispatch l.run n)
  | poolAssigned {run worker tx shardIndex shardCount vuOffset vuCount first rest} :
    s.effect run (.register worker tx) =
      some (.registered (.assigned shardIndex shardCount vuOffset vuCount first)) →
    Follows s (.assignNext run ((worker, tx) :: rest))
      (.poolAssignmentFor run worker tx ⟨shardIndex, shardCount, vuOffset, vuCount⟩ first rest)
  | push {run worker tx place b rest a} :
    s.assignmentFor run place = some a →
    Follows s (.poolAssignmentFor run worker tx place b rest)
      (.pushAssignment run worker tx a b rest)
  | pushed {run worker tx a b rest} :
    s.closed tx = false → Follows s (.pushAssignment run worker tx a b rest) (.assignNext run rest)
  | giveUp {x run message e} :
    x.launching = some run → Follows s x (.cancelDispatchFailed run message e)

variable {cfg : Config} {env : Ambient} {s s' : State} {t : Task} {x y : Section}
variable {rest : List Section} {run : RunId} {tx : Tx} {worker : WorkerId} {message : String}

theorem mem_fanOutAbort {txs : List Tx} {reason : String} (h : y ∈ fanOutAbort run txs reason) :
    Follows s x y := by
  have ⟨_, _, h⟩ := List.mem_map.mp h
  exact h ▸ .sendAbort

theorem effect_of_outcome {o : Option Effect} {outcome : RegisterOutcome}
    (h : outcomeOf o = outcome) (hn : outcome ≠ .noRun) : o = some (.registered outcome) := by
  unfold outcomeOf at h
  split at h
  case h_1 => rw [h]
  case h_2 => exact absurd h.symm hn

theorem mem_afterRegister (h : y ∈ afterRegister run worker tx
    (outcomeOf (s.effect run (.register worker tx)))) : Follows s (.register run worker tx) y := by
  generalize ho : outcomeOf (s.effect run (.register worker tx)) = o at h
  cases o
  case assigned =>
    cases List.mem_singleton.mp h
    exact .assigned (effect_of_outcome ho (by simp))
  case resend => cases List.mem_singleton.mp h; exact .resent
  case noRun => cases List.mem_singleton.mp h; exact .leave rfl
  case reject =>
    cases List.mem_cons.mp h
    case inl h => exact h ▸ .sendAbort
    case inr h => exact List.mem_singleton.mp h ▸ .leave rfl

theorem mem_closing {stream : Stream} (hs : s.streams tx = some stream) (h : y ∈ stream.closing tx) :
    Follows s (.leave tx) y := by
  rw [Stream.closing] at h
  split at h
  case isTrue hp =>
    cases hw : stream.workerId
    case none => simp [hw] at h
    case some worker =>
      rw [hw] at h
      exact List.mem_singleton.mp h ▸ .closePool hs hp hw
  case isFalse hp =>
    split at h
    case h_1 hr hw => exact List.mem_singleton.mp h ▸ .closeRun hs (by simpa using hp) hr hw
    case h_2 => cases h

theorem mem_afterRecordPhase {phase : ℤ} (h : y ∈ afterRecordPhase run worker message
    (s.effect run (.recordPhase worker phase))) :
    Follows s (.recordPhase run worker phase message) y := by
  unfold afterRecordPhase at h
  split at h
  case h_1 he => exact List.mem_singleton.mp h ▸ .completed he
  case h_2 he => exact List.mem_singleton.mp h ▸ .aborted he
  case h_3 he =>
    cases List.mem_cons.mp h
    case inl h => exact h ▸ .failed he
    case inr h => exact mem_fanOutAbort h
  case h_4 => cases h

theorem mem_afterTornDown {reason : String} {o : Option Effect}
    (hw : ∀ siblings m, o = some (.tornDown (some siblings)) →
      Follows s x (.write run (.markFailedIfActive m)))
    (h : y ∈ afterTornDown run reason message o) : Follows s x y := by
  unfold afterTornDown at h
  split at h
  case h_1 =>
    cases List.mem_cons.mp h
    case inl h => exact h ▸ hw _ _ rfl
    case inr h => exact mem_fanOutAbort h
  case h_2 => cases h

theorem mem_afterGetRow (h : y ∈ afterGetRow run (s.rows run)) : Follows s (.abortRun run) y := by
  cases hr : s.rows run
  case none =>
    rw [hr] at h
    exact List.mem_singleton.mp h ▸ .reply (by simp)
  case some row =>
    rw [hr, afterGetRow] at h
    split at h
    case isFalse => exact List.mem_singleton.mp h ▸ .reply (by simp)
    case isTrue ha =>
      simp only [List.mem_cons, List.not_mem_nil, or_false] at h
      rcases h with rfl | rfl | rfl
      · exact .abort
      · exact .userAborted hr ha
      · exact .confirm hr ha

theorem mem_disconnected {assigned : Option RunId}
    (h : y ∈ (assigned.map (Section.workerDisconnected · worker tx)).toList) :
    ∃ run, assigned = some run ∧ y = .workerDisconnected run worker tx := by
  cases assigned
  case none => cases h
  case some run => exact ⟨run, rfl, List.mem_singleton.mp h⟩

theorem lookup_of_disconnect (h : (s.pool.disconnect worker).1 = some run) :
    ∃ e, s.pool.lookup worker = some e ∧ e.assignedRun = some run :=
  Option.bind_eq_some_iff.mp h

theorem mem_afterReserved {l : Launch} {workers : List (WorkerId × Tx)}
    {counts : Option (Vector (ℕ × ℕ) workers.length)} (hl : x.launching = some l.run)
    (he : Follows s x (.enqueue l workers.length counts (some workers)))
    (hr : ∀ m e, Follows s x (.releasePoolReservation l.run workers m e))
    (h : y ∈ afterReserved l workers counts) : Follows s x y := by
  rw [afterReserved] at h
  split at h
  case isTrue => exact List.mem_singleton.mp h ▸ .giveUp hl
  case isFalse =>
    split at h
    case h_1 => exact List.mem_singleton.mp h ▸ hr _ _
    case h_2 => exact List.mem_singleton.mp h ▸ he

theorem exec_follows (h : y ∈ (exec cfg env s x).2) : Follows s x y := by
  cases x
  case write => cases h
  case send => cases h
  case trySend => cases h
  case reply => cases h
  case ingestMetrics => cases h
  case poolRegisterIdle => cases h
  case putPoolOverride => cases h
  case getPoolOverride => exact List.mem_singleton.mp h ▸ .poolRegisterIdle
  case register => exact mem_afterRegister h
  case assignmentFor run worker tx place b =>
    change y ∈ afterAssignmentFor run tx b (s.assignmentFor run place) at h
    cases ha : s.assignmentFor run place
    case none => rw [ha] at h; exact List.mem_singleton.mp h ▸ .leave rfl
    case some a =>
      rw [ha] at h
      cases List.mem_cons.mp h
      case inl h => exact h ▸ .sendAssignment ha
      case inr h => cases b <;> simp [startRunning] at h; exact h ▸ .running ha
  case leave tx =>
    cases hs : s.streams tx
    case none => simp [exec, hs] at h
    case some stream => exact mem_closing hs (by simpa [exec, hs] using h)
  case recordPhase => exact mem_afterRecordPhase h
  case workerDisconnected => exact mem_afterTornDown (fun _ _ he => .lost he) h
  case failRunHung => exact mem_afterTornDown (fun _ _ he => .hung he) h
  case failIncompleteRegistration run =>
    change y ∈ afterMissing run _ at h
    generalize (s.runs run).bind RunWorkers.missing = o at h
    cases o
    case none => cases h
    case some => exact List.mem_singleton.mp h ▸ .missing
  case cancelDispatchFailed =>
    cases List.mem_append.mp h
    case inl h => exact mem_fanOutAbort h
    case inr h =>
      simp only [List.mem_cons, List.not_mem_nil, or_false] at h
      rcases h with rfl | rfl
      · exact .dispatchFailed
      · exact .reply (by simp)
  case abortRun => exact mem_afterGetRow h
  case abort => exact mem_fanOutAbort h
  case poolDisconnect =>
    obtain ⟨_, ha, hy⟩ := mem_disconnected h
    obtain ⟨_, he, ha⟩ := lookup_of_disconnect ha
    exact hy ▸ .disconnect he ha
  case poolExclude worker reason =>
    simp only [exec] at h
    split at h
    case h_1 he =>
      cases List.mem_append.mp h
      case inl h =>
        obtain ⟨_, ha, hy⟩ := mem_disconnected h
        obtain ⟨_, he', ha⟩ := lookup_of_disconnect ha
        cases he.symm.trans he'
        exact hy ▸ .exclude he ha
      case inr h =>
        simp only [List.mem_cons, List.not_mem_nil, or_false] at h
        rcases h with rfl | rfl
        · exact .trySend
        · exact .reply (by simp)
    case h_2 => exact List.mem_singleton.mp h ▸ .reply (by simp)
  case poolSetControl worker _ _ _ =>
    simp only [exec] at h
    split at h
    case h_1 e _ =>
      cases List.mem_append.mp h
      case inl h => simp at h; exact h.right ▸ .putPoolOverride
      case inr h => exact List.mem_singleton.mp h ▸ .reply (by simp)
    case h_2 => exact List.mem_singleton.mp h ▸ .reply (by simp)
  case sweep =>
    rw [exec] at h
    split at h
    case isTrue => exact List.mem_singleton.mp h ▸ .sweep
    case isFalse => cases h
  case precheck =>
    simp only [exec] at h
    split at h
    case isTrue => exact List.mem_singleton.mp h ▸ .reply (by simp)
    case isFalse => exact List.mem_singleton.mp h ▸ .insert
  case insert l =>
    simp only [exec] at h
    split at h
    case h_1 => exact List.mem_singleton.mp h ▸ .reply (by simp)
    case h_2 hr =>
      split at h
      case isTrue => exact List.mem_singleton.mp h ▸ .fanOut hr
      case isFalse =>
        split at h
        case isTrue => exact List.mem_singleton.mp h ▸ .force hr
        case isFalse => exact List.mem_singleton.mp h ▸ .capacity hr
  case reserveIdlePool l =>
    exact mem_afterReserved rfl (.enqueueForce rfl) (fun _ _ => .releaseForce rfl) h
  case reserveIdlePoolCapacity l =>
    simp only [exec] at h
    generalize hr : (s.pool.reserveIdlePoolCapacity _ _ _).1 = r at h
    cases r
    case reserved =>
      exact mem_afterReserved rfl (.enqueueCapacity hr) (fun _ _ => .releaseCapacity hr) h
    case insufficient => exact List.mem_singleton.mp h ▸ .giveUp rfl
  case releasePoolReservation => exact List.mem_singleton.mp h ▸ .giveUp rfl
  case enqueue reserved =>
    cases reserved
    case none => exact List.mem_singleton.mp h ▸ .dispatch
    case some => exact List.mem_singleton.mp h ▸ .assign
  case dispatch =>
    change y ∈ afterDispatch _ env.dispatchError at h
    generalize env.dispatchError = o at h
    cases o
    case none => exact List.mem_singleton.mp h ▸ .reply (by simp)
    case some => exact List.mem_singleton.mp h ▸ .giveUp rfl
  case assignNext run reserved =>
    cases reserved
    case nil => exact List.mem_singleton.mp h ▸ .reply (by simp)
    case cons w reserved =>
      simp only [exec, State.register] at h
      generalize ho : outcomeOf (s.effect run (.register w.1 w.2)) = o at h
      cases o
      case assigned =>
        exact List.mem_singleton.mp h ▸ .poolAssigned (effect_of_outcome ho (by simp))
      all_goals exact List.mem_singleton.mp h ▸ .giveUp rfl
  case poolAssignmentFor run _ _ place _ _ =>
    simp only [exec] at h
    cases ha : s.assignmentFor run place
    case none => rw [ha] at h; exact List.mem_singleton.mp h ▸ .giveUp rfl
    case some => rw [ha] at h; exact List.mem_singleton.mp h ▸ .push ha
  case pushAssignment b _ =>
    rw [exec] at h
    split at h
    case isTrue => exact List.mem_singleton.mp h ▸ .giveUp rfl
    case isFalse hc =>
      cases List.mem_append.mp h
      case inl h =>
        cases b <;> simp [startRunning] at h
        exact h ▸ .poolRunning (by simpa using hc)
      case inr h => exact List.mem_singleton.mp h ▸ .pushed (by simpa using hc)

end Controller
