import Handicap.Controller.Theorems.Launching
import Handicap.Coordinator.Theorems.Admission

open Store Coordinator Api Tasks Trace

-- What becomes of the entries of the pool, and which workers a launch has reserved.
namespace Controller

-- The workers that a section of a launch has reserved and not registered on the run so far.
def Section.reserved : Section → List (WorkerId × Tx)
  | enqueue _ _ _ (some workers)         => workers
  | releasePoolReservation _ workers _ _ => workers
  | assignNext _ workers                 => workers
  | poolAssignmentFor _ _ _ _ _ rest     => rest
  | pushAssignment _ _ _ _ _ rest        => rest
  | _                                    => []

variable {cfg : Config} {env : Ambient} {s : State} {t : Task} {x y : Section}
variable {rest : List Section} {run : RunId} {tx : Tx} {worker : WorkerId} {e : PoolEntry}

section Changes

-- What a section may do to the entry of a worker in the pool.
inductive PoolChanges (s : State) (x : Section) (worker : WorkerId) : Option PoolEntry → Prop
  | same : PoolChanges s x worker (s.pool.lookup worker)
  | registered {r : Register} {tx : Tx} {restored : Option PoolOverride} {e : PoolEntry} :
    x = .poolRegisterIdle r tx restored → r.workerId = worker → e.tx = tx →
    e.assignedRun = none → PoolChanges s x worker (some e)
  | reserved {run : RunId} {e : PoolEntry} :
    x.launching = some run → s.pool.lookup worker = some e → e.isIdle →
    PoolChanges s x worker (some { e with assignedRun := some run })
  | released {run : RunId} {workers : List (WorkerId × Tx)} {message : String} {er : ApiError}
      {e : PoolEntry} :
    x = .releasePoolReservation run workers message er → worker ∈ workers.map Prod.fst →
    s.pool.lookup worker = some e → PoolChanges s x worker (some { e with assignedRun := none })
  | disconnected {conn : Tx} : x = .poolDisconnect worker conn → PoolChanges s x worker none
  | excluded {reason : String} : x = .poolExclude worker reason → PoolChanges s x worker none
  | controlled {e e' : PoolEntry} :
    s.pool.lookup worker = some e → e'.tx = e.tx → e'.assignedRun = e.assignedRun →
    PoolChanges s x worker (some e')

theorem PoolChanges.of_none (h : s.pool.lookup worker = none) : PoolChanges s x worker none :=
  h ▸ .same

theorem PoolChanges.of_reserve {workers : List WorkerId} (hx : x.launching = some run)
    (hw : ∀ w ∈ workers, s.pool.isIdle w) :
    PoolChanges s x worker ((s.pool.reserve run workers).lookup worker) := by
  rw [Pool.lookup_reserve]
  split
  case isFalse => exact .same
  case isTrue hm =>
    have hi := hw worker hm
    rw [Pool.isIdle] at hi
    cases he : s.pool.lookup worker
    case none => exact .of_none he
    case some e =>
      rw [he] at hi
      exact .reserved hx he hi

theorem PoolChanges.of_erase {w : WorkerId}
    (h : w = worker → PoolChanges s x worker none) :
    PoolChanges s x worker ((s.pool.erase w).lookup worker) := by
  by_cases hw : w = worker
  · subst hw
    rw [AList.lookup_erase]
    exact h rfl
  · rw [AList.lookup_erase_ne (Ne.symm hw)]
    exact .same

theorem PoolChanges.of_setControl {w : WorkerId} {d : Option Bool} {c : Option (Option U32)}
    {l : Option (Option String)} :
    PoolChanges s x worker ((s.pool.setControl w d c l).lookup worker) := by
  rw [Pool.setControl, Pool.lookup_modify]
  split
  case isFalse => exact .same
  case isTrue =>
    cases he : s.pool.lookup worker
    case none => exact .of_none he
    case some e => exact .controlled he rfl rfl

theorem exec_pool (cfg : Config) (env : Ambient) (s : State) (x : Section) (worker : WorkerId) :
    PoolChanges s x worker ((exec cfg env s x).1.pool.lookup worker) := by
  cases x
  case poolRegisterIdle r tx restored =>
    simp only [exec, Pool.registerIdle]
    by_cases hw : worker = r.workerId
    · subst hw
      split <;> (rw [AList.lookup_insert]; exact .registered rfl rfl rfl rfl)
    · split <;> (rw [AList.lookup_insert_ne hw]; exact .same)
  case poolDisconnect => exact .of_erase fun h => h ▸ .disconnected rfl
  case poolExclude w reason =>
    have c : PoolChanges s (.poolExclude w reason) worker ((s.pool.erase w).lookup worker) :=
      .of_erase fun h => h ▸ .excluded rfl
    simp only [exec]
    split
    case h_1 => exact c
    case h_2 => exact .same
  case poolSetControl => simp only [exec]; split <;> first | exact .of_setControl | exact .same
  case reserveIdlePool l => exact .of_reserve rfl fun _ => Pool.isIdle_of_mem_ids
  case reserveIdlePoolCapacity l =>
    change PoolChanges s _ worker ((s.pool.reserveIdlePoolCapacity _ _ _).2.lookup worker)
    cases s.pool.reserveIdlePoolCapacity_pool l.run l.profile.poolWorkerCap
      l.profile.concurrencyDemand
    case inl h => rw [h]; exact .same
    case inr h => rw [h]; exact .of_reserve rfl fun _ => Pool.isIdle_of_mem_candidates
  case releasePoolReservation run workers message er =>
    simp only [exec, Pool.lookup_release]
    split
    case isFalse => exact .same
    case isTrue hm =>
      cases he : s.pool.lookup worker
      case none => exact .of_none he
      case some => exact .released rfl hm he
  case trySend => rw [exec]; split <;> exact .same
  case sweep => rw [exec]; split <;> first | exact .same | (split <;> exact .same)
  case precheck => simp only [exec]; split <;> exact .same
  case insert => simp only [exec]; split <;> exact .same
  case assignNext reserved => cases reserved <;> exact .same
  case pushAssignment => rw [exec]; split <;> exact .same
  all_goals exact .same

end Changes

-- The check of a launch before its run is inserted refuses the loads that the pool would refuse.
theorem exec_precheck {l : Launch} (hp : cfg.poolMode) (hf : l.force = false) (achievable : ℕ) :
    (exec cfg env s (.precheck l)).2 =
        [.reply (.spawnRun l.run (.error (.conflictJson achievable l.profile.concurrencyDemand)))] ↔
      s.pool.Refuses l.profile.poolWorkerCap l.profile.concurrencyDemand achievable := by
  simp only [exec, hp, hf, Bool.false_eq_true, not_false_iff, true_and, Pool.Refuses]
  split
  case isTrue h => simp; grind
  case isFalse h => simp; grind

section Reserved

theorem mem_afterReserved_reserved {l : Launch} {workers : List (WorkerId × Tx)}
    {counts : Option (Vector (ℕ × ℕ) workers.length)} (h : y ∈ afterReserved l workers counts)
    (hw : (worker, tx) ∈ y.reserved) : (worker, tx) ∈ workers ∧ y.launching = some l.run := by
  rw [afterReserved] at h
  split at h
  case isTrue => cases List.mem_singleton.mp h; cases hw
  case isFalse => split at h <;> (cases List.mem_singleton.mp h; exact ⟨hw, rfl⟩)

-- The workers that a section goes on with were reserved before, or are reserved by it.
theorem exec_reserved (h : y ∈ (exec cfg env s x).2) (hw : (worker, tx) ∈ y.reserved) :
    ∃ run, x.launching = some run ∧ y.launching = some run ∧
      ((worker, tx) ∈ x.reserved ∨
        Pool.Reserves s.pool (exec cfg env s x).1.pool run worker tx) := by
  by_cases hr : ∃ l, x = .reserveIdlePool l ∨ x = .reserveIdlePoolCapacity l
  case pos =>
    obtain ⟨l, rfl | rfl⟩ := hr
    · obtain ⟨hw, hl⟩ := mem_afterReserved_reserved h hw
      exact ⟨l.run, rfl, hl, .inr (Pool.reserveIdlePool_reserves hw)⟩
    · simp only [exec] at h ⊢
      generalize hr : (s.pool.reserveIdlePoolCapacity _ _ _).1 = r at h
      cases r
      case insufficient => cases List.mem_singleton.mp h; cases hw
      case reserved =>
        obtain ⟨hw, hl⟩ := mem_afterReserved_reserved h hw
        exact ⟨l.run, rfl, hl, .inr (Pool.reserveIdlePoolCapacity_reserves hr hw)⟩
  case neg =>
    have f := exec_follows h
    cases f <;> try exact absurd hw List.not_mem_nil
    case enqueueForce l _ _ _ => exact absurd ⟨l, .inl rfl⟩ hr
    case releaseForce l _ _ _ _ _ => exact absurd ⟨l, .inl rfl⟩ hr
    case enqueueCapacity l _ _ _ => exact absurd ⟨l, .inr rfl⟩ hr
    case releaseCapacity l _ _ _ _ _ => exact absurd ⟨l, .inr rfl⟩ hr
    case assign => exact ⟨_, rfl, rfl, .inl hw⟩
    case poolAssigned => exact ⟨_, rfl, rfl, .inl (List.mem_cons_of_mem _ hw)⟩
    case push => exact ⟨_, rfl, rfl, .inl hw⟩
    case pushed => exact ⟨_, rfl, rfl, .inl hw⟩

end Reserved

end Controller
