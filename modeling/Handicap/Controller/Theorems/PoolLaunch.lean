import Handicap.Controller.PoolLaunch
import Handicap.Controller.Theorems.Reservations
import Mathlib.Data.List.TakeWhile

open Store Coordinator Api

-- What becomes of the workers that a launch has reserved when it fails.
namespace Controller

variable {l : Launch} {o : Outcomes} {before pool : Pool} {w : WorkerId × Tx}
variable {workers : List (WorkerId × Tx)}

namespace Outcomes

-- The assignment reaches the worker.
def delivers (o : Outcomes) (w : WorkerId × Tx) : Bool :=
  (o.assignment w.1).isSome && !o.closed w.2

-- The workers from the first one on that the assignment does not reach.
def unassigned (o : Outcomes) (workers : List (WorkerId × Tx)) : List (WorkerId × Tx) :=
  workers.dropWhile o.delivers

theorem assignPoolWorkers_eq (workers : List (WorkerId × Tx)) :
    o.assignPoolWorkers workers = (workers.takeWhile o.delivers, workers.all o.delivers) := by
  induction workers
  case nil => rfl
  case cons w workers ih =>
    rw [assignPoolWorkers, List.takeWhile_cons, List.all_cons]
    split
    case h_1 ha => cases hc : o.closed w.2 <;> simp [delivers, ha, hc, ih]
    case h_2 ha => simp [delivers, ha]

end Outcomes

-- Every worker that a failed launch has reserved, and that is connected and has not been sent an
-- assignment, is not assigned to a run any more.
def Spawned.NoLeak (r : Spawned) (closed : Tx → Bool) : Prop :=
  ∀ e, r.result = .error e → ∀ w ∈ r.reserved, closed w.2 = false → w ∉ r.sent →
    (r.pool.lookup w.1).map (·.assignedRun) = some none

-- The workers that a launch reserves unless it is refused.
def chosen (l : Launch) (order : List WorkerId) (pool : Pool) : List (WorkerId × Tx) :=
  if l.force then
    pool.txsOf (((iteration order pool).filter pool.isIdle).take l.profile.poolWorkerCap)
  else
    (pool.candidates l.profile.poolWorkerCap).map fun w => (w.1, w.2.tx)

-- Some worker of the pool is idle, but the load is too much for them.
def Overloaded (l : Launch) (pool : Pool) : Prop :=
  ∃ achievable, pool.Refuses l.profile.poolWorkerCap l.profile.concurrencyDemand achievable

-- The launch ends before anything is assigned: the pool cannot bear the load, the run cannot be
-- inserted, or a unique dataset has fewer rows than there are workers.
inductive Refused (l : Launch) (o : Outcomes) (before pool : Pool) : Prop
  | overloaded : l.force = false → Overloaded l before → Refused l o before pool
  | db : o.inserted = false → Refused l o before pool
  | shrunk : l.force = false → Overloaded l pool → Refused l o before pool
  | floor : (l.poolUniqueFloorViolation (chosen l o.order pool).length).isSome →
    Refused l o before pool

section Chosen

theorem iteration_nodup (order : List WorkerId) (pool : Pool) : (iteration order pool).Nodup := by
  rw [iteration]
  split
  case isTrue h => exact (List.isPerm_iff.mp h).nodup_iff.mpr pool.nodupKeys
  case isFalse => exact pool.nodupKeys

theorem txsOf_fst_sublist (workers : List WorkerId) :
    (pool.txsOf workers).map Prod.fst |>.Sublist workers := by
  induction workers
  case nil => exact .slnil
  case cons w workers ih =>
    rw [Pool.txsOf, List.filterMap_cons]
    cases pool.lookup w
    case none => exact ih.cons _
    case some => exact ih.cons_cons _

theorem chosen_nodup (l : Launch) (order : List WorkerId) (pool : Pool) :
    ((chosen l order pool).map Prod.fst).Nodup := by
  rw [chosen]
  split
  case isTrue =>
    have hn := ((iteration_nodup order pool).filter pool.isIdle).sublist
      (List.take_sublist l.profile.poolWorkerCap _)
    exact hn.sublist (txsOf_fst_sublist _)
  case isFalse =>
    rw [List.map_map]
    exact Pool.idle_nodup.sublist ((List.take_sublist _ _).map Prod.fst)

end Chosen

section NoLeak

theorem Spawned.noLeak_nil {result : Except ApiError Unit} {closed : Tx → Bool} :
    (Spawned.mk pool [] [] result).NoLeak closed :=
  fun _ _ _ hw => absurd hw List.not_mem_nil

-- A worker that is released is not assigned to a run any more.
theorem release_noLeak {result : Except ApiError Unit} {closed : Tx → Bool}
    (hr : ∀ w ∈ workers, (pool.lookup w.1).isSome) :
    (Spawned.mk (pool.releasePoolReservation workers) workers [] result).NoLeak closed := by
  intro _ _ w hw _ _
  have ⟨e, he⟩ := Option.isSome_iff_exists.mp (hr w hw)
  simp only [Pool.lookup_release, List.mem_map_of_mem hw, if_true, he, Option.map_some]

-- The workers stay reserved from the first one on that the assignment does not reach.
theorem assigned_noLeak (hn : (workers.map Prod.fst).Nodup)
    (hr : ∀ w ∈ workers, (pool.lookup w.1).map (·.assignedRun) = some (some l.run)) (e : ApiError) :
    (Spawned.mk pool workers (o.assignPoolWorkers workers).1
        (if (o.assignPoolWorkers workers).2 then .ok () else .error e)).NoLeak o.closed ↔
      ∀ w ∈ o.unassigned workers, o.closed w.2 := by
  have hs := List.takeWhile_append_dropWhile (p := o.delivers) (l := workers)
  rw [Outcomes.assignPoolWorkers_eq]
  constructor
  case mp =>
    intro h w hw
    by_contra hc
    have hm : w ∈ workers := (List.dropWhile_suffix _).mem hw
    have hd := List.disjoint_of_nodup_append (hs ▸ hn.of_map)
    have hall : workers.all o.delivers = false := by
      by_contra hall
      rw [Outcomes.unassigned, List.dropWhile_eq_nil_iff.mpr (by simpa using hall)] at hw
      exact absurd hw List.not_mem_nil
    have hl := h e (by simp [hall]) w hm (by simpa using hc) fun ht => hd ht hw
    cases (hr w hm).symm.trans hl
  case mpr =>
    intro h e' _ w hw hc ht
    rw [← hs, List.mem_append] at hw
    cases hw
    case inl hw => exact absurd hw ht
    case inr hw => simp [h w hw] at hc

theorem spawnReserved_noLeak (hn : (workers.map Prod.fst).Nodup)
    (hr : ∀ w ∈ workers, (pool.lookup w.1).map (·.assignedRun) = some (some l.run)) :
    (spawnReserved l o pool workers).NoLeak o.closed ↔
      (l.poolUniqueFloorViolation workers.length).isSome ∨
        ∀ w ∈ o.unassigned workers, o.closed w.2 := by
  rw [spawnReserved]
  cases workers
  case nil => simp [Spawned.noLeak_nil, Outcomes.unassigned]
  case cons w workers =>
    cases hf : l.poolUniqueFloorViolation (w :: workers).length
    case none => simpa using assigned_noLeak hn hr _
    case some violation =>
      have hs : ∀ w' ∈ w :: workers, (pool.lookup w'.1).isSome := fun w' hw' => by
        simpa using congrArg Option.isSome (hr w' hw')
      simpa using release_noLeak hs

theorem reserves_assignedRun {pool' : Pool} {run : RunId}
    (h : Pool.Reserves pool pool' run w.1 w.2) :
    (pool'.lookup w.1).map (·.assignedRun) = some (some run) := by
  have ⟨e, _, _, _, he⟩ := h
  rw [he]
  rfl

theorem overloaded_iff :
    (∃ achievable, (pool.reserveIdlePoolCapacity l.run l.profile.poolWorkerCap
      l.profile.concurrencyDemand).1 = .insufficient achievable) ↔ Overloaded l pool :=
  exists_congr fun _ => Pool.reserveIdlePoolCapacity_insufficient

theorem reserved_chosen {workers : List (WorkerId × Tx)} {counts : Vector (ℕ × ℕ) workers.length}
    (hf : l.force = false) (order : List WorkerId)
    (h : (pool.reserveIdlePoolCapacity l.run l.profile.poolWorkerCap
      l.profile.concurrencyDemand).1 = .reserved workers counts) :
    workers = chosen l order pool := by
  simp only [Pool.reserveIdlePoolCapacity] at h
  simp only [chosen, hf, Bool.false_eq_true, if_false]
  split_ifs at h with he ha
  case pos => cases h; simp [Pool.candidates, List.isEmpty_iff.mp he]
  case neg => cases h; rfl

-- The workers are reserved, so the launch can only be refused for the rows of a unique dataset.
theorem spawnReserved_chosen_noLeak {pool' : Pool} (hi : o.inserted)
    (hr : ∀ w ∈ chosen l o.order pool, Pool.Reserves pool pool' l.run w.1 w.2)
    (ho : l.force = false → ¬Overloaded l before ∧ ¬Overloaded l pool) :
    (spawnReserved l o pool' (chosen l o.order pool)).NoLeak o.closed ↔
      Refused l o before pool ∨ ∀ w ∈ o.unassigned (chosen l o.order pool), o.closed w.2 := by
  rw [spawnReserved_noLeak (chosen_nodup l o.order pool) fun w hw => reserves_assignedRun (hr w hw)]
  refine or_congr_left ⟨.floor, fun r => ?_⟩
  cases r
  case floor h => exact h
  case db h => cases hi.symm.trans h
  case overloaded hf h => exact absurd h (ho hf).left
  case shrunk hf h => exact absurd h (ho hf).right

-- A failed launch leaks no reservation just where it is refused before anything is assigned, or all
-- workers from the first one on that the assignment does not reach have gone.
theorem spawnRun_noLeak_iff (l : Launch) (o : Outcomes) (before pool : Pool) :
    (spawnRun l o before pool).NoLeak o.closed ↔
      Refused l o before pool ∨ ∀ w ∈ o.unassigned (chosen l o.order pool), o.closed w.2 := by
  simp only [spawnRun]
  split_ifs with hb hi hf
  case pos =>
    have hr : Refused l o before pool := .overloaded (by simpa using hb.1) ⟨_, hb.2.1, rfl, hb.2.2⟩
    exact iff_of_true Spawned.noLeak_nil (.inl hr)
  case pos =>
    -- The legacy path never refuses a load.
    have hw : chosen l o.order pool = (pool.reserveIdlePool (iteration o.order pool) l.run
      l.profile.poolWorkerCap).1 := if_pos hf
    rw [← hw]
    refine spawnReserved_chosen_noLeak hi (fun w hm => ?_) fun h => by simp [hf] at h
    exact Pool.reserveIdlePool_reserves (hw ▸ hm)
  case neg =>
    have hf : l.force = false := by simpa using hf
    have hbefore : ¬Overloaded l before := fun ⟨_, hidle, ha, hlt⟩ =>
      hb ⟨by simp [hf], hidle, ha ▸ hlt⟩
    cases hr : pool.reserveIdlePoolCapacity l.run l.profile.poolWorkerCap
      l.profile.concurrencyDemand
    case mk reservation pool' =>
      have hpool : pool' = _ := (congrArg Prod.snd hr).symm
      have hr := congrArg Prod.fst hr
      cases reservation
      case insufficient =>
        exact iff_of_true Spawned.noLeak_nil (.inl (.shrunk hf (overloaded_iff.1 ⟨_, hr⟩)))
      case reserved =>
        have ho : ¬Overloaded l pool := fun ho => by
          have ⟨_, h⟩ := overloaded_iff.2 ho
          cases hr.symm.trans h
        have hw := reserved_chosen hf o.order hr
        simp only [hw, hpool]
        refine spawnReserved_chosen_noLeak hi (fun w hm => ?_) fun _ => ⟨hbefore, ho⟩
        exact Pool.reserveIdlePoolCapacity_reserves hr (hw ▸ hm)
  case neg => exact iff_of_true Spawned.noLeak_nil (.inl (.db (by simpa using hi)))

-- Two idle workers, of which the first has just gone.
def samplePool : Pool :=
  (Pool.registerIdle ∅ "a" 0 1 "" false none).registerIdle "b" 1 1 "" false none

def firstGone : Outcomes where
  inserted          := true
  order             := []
  register worker   := .assigned (if worker = "a" then 0 else 1) 2 0 1 (worker = "a")
  assignmentFor _ p := some ((sampleLaunch "r" 2).enqueued 2 none |>.assignmentFor "r"
    p.shardIndex p.shardCount p.vuOffset p.vuCount).1
  closed tx         := tx = 0

-- The second worker stays reserved for a run that is gone.
theorem second_worker_leaks :
    ¬(spawnRun (sampleLaunch "r" 2) firstGone samplePool samplePool).NoLeak firstGone.closed := by
  intro h
  have hl := h (.internal assignFailed) (by decide +kernel) ("b", 1) (by decide +kernel)
    (by decide +kernel) (by decide +kernel)
  revert hl
  decide +kernel

end NoLeak

section Serves

variable {cfg : Config} {env : Ambient} {s s' : State} {run : RunId} {sections : List Section}

-- A task runs its sections to the end, with no other task in between.
inductive Serves (cfg : Config) (env : Ambient) : State → List Section → State → Prop
  | done {s : State} : Serves cfg env s [] s
  | next {s s' : State} {x : Section} {rest : List Section} :
    Serves cfg env (exec cfg env s x).1 ((exec cfg env s x).2 ++ rest) s' →
    Serves cfg env s (x :: rest) s'

-- The sections end with the pool and the reply of a launch.
def Ends (cfg : Config) (env : Ambient) (run : RunId) (s : State) (sections : List Section)
    (pool : Pool) (result : Except ApiError Unit) : Prop :=
  ∃ s', Serves cfg env s sections s' ∧ s'.pool = pool ∧
    .replied (.spawnRun run result) ∈ s'.log

variable {result : Except ApiError Unit}

theorem Ends.next {x : Section} {rest : List Section}
    (h : Ends cfg env run (exec cfg env s x).1 ((exec cfg env s x).2 ++ rest) pool result) :
    Ends cfg env run s (x :: rest) pool result := by
  have ⟨s', hs, h⟩ := h
  exact ⟨s', .next hs, h⟩

theorem ends_reply : Ends cfg env run s [.reply (.spawnRun run result)] s.pool result :=
  ⟨_, .next .done, rfl, List.mem_append_right _ (List.mem_singleton_self _)⟩

theorem ends_fanOutAbort (txs : List Tx) (reason : String)
    (h : ∀ log, Ends cfg env run { s with log } sections pool result) :
    Ends cfg env run s (fanOutAbort run txs reason ++ sections) pool result := by
  induction txs generalizing s
  case nil => exact h s.log
  case cons tx txs ih =>
    refine .next (ih fun log => ?_)
    exact h log

theorem ends_cancel (message : String) (e : ApiError) :
    Ends cfg env run s [.cancelDispatchFailed run message e] s.pool (.error e) := by
  refine .next ?_
  rw [List.append_nil]
  refine ends_fanOutAbort _ _ fun log => ?_
  exact .next ends_reply

theorem exec_assignNext (cfg : Config) (env : Ambient) (workers : List (WorkerId × Tx))
    {rw : RunWorkers} (hs : s.runs run = some rw) (ht : rw.terminal = false)
    (hw : rw.workers.lookup w.1 = none) (hn : rw.nextShard < rw.expected) :
    ∃ place first log, exec cfg env s (.assignNext run (w :: workers)) =
      ({ s with runs := Function.update s.runs run (some (rw.addWorker w.1 w.2 hn)), log },
        [.poolAssignmentFor run w.1 w.2 place first workers]) := by
  have hreg : rw.register w.1 w.2 = (.assigned rw.nextShard rw.expected (rw.slot rw.nextShard hn).1
      (rw.slot rw.nextShard hn).2 rw.workers.keys.isEmpty, rw.addWorker w.1 w.2 hn) := by
    simp [RunWorkers.register, ht, hw, hn]
  simp only [exec, State.register, State.effect, State.call, State.emit, hs, Option.map_some,
    RunWorkers.exec, hreg, Prod.map, outcomeOf, afterPoolRegister, id]
  exact ⟨_, _, _, rfl⟩

-- The registrations on a run that has just been enqueued, one after the other.
theorem ends_assignNext {rw : RunWorkers} (hs : s.runs run = some rw) (ht : rw.terminal = false)
    (hn : (workers.map Prod.fst).Nodup) (hw : ∀ w ∈ workers, rw.workers.lookup w.1 = none)
    (hlt : rw.nextShard + workers.length ≤ rw.expected) :
    Ends cfg env run s [.assignNext run workers] s.pool
      (if workers.all fun w => !s.closed w.2 then .ok () else .error (.internal assignFailed)) := by
  induction workers generalizing s rw
  case nil => exact .next ends_reply
  case cons w workers ih =>
    have hlt' : rw.nextShard < rw.expected := by simp at hlt; omega
    have hn := List.nodup_cons.mp hn
    have hw₁ := hw w List.mem_cons_self
    have ⟨place, first, log, hx⟩ := exec_assignNext cfg env workers hs ht hw₁ hlt'
    refine .next ?_
    rw [hx, List.append_nil]
    refine .next ?_
    simp only [exec, State.assignmentFor, Function.update_self, Option.map_some,
      afterPoolAssignmentFor, List.append_nil]
    refine .next ?_
    cases hc : s.closed w.2
    case true =>
      simp only [exec, hc, if_true, List.append_nil, giveUpAssign, List.all_cons, Bool.not_true,
        Bool.false_and, Bool.false_eq_true, if_false]
      exact ends_cancel assignFailed (.internal assignFailed)
    case false =>
      simp only [exec, hc, Bool.false_eq_true, if_false, List.append_nil]
      have hw' : ∀ w' ∈ workers, (rw.addWorker w.1 w.2 hlt').workers.lookup w'.1 = none := by
        intro w' hm
        rw [RunWorkers.lookup_addWorker, if_neg, hw w' (List.mem_cons_of_mem _ hm)]
        exact fun he => hn.1 (he ▸ List.mem_map_of_mem hm)
      have hlt' : rw.nextShard + 1 + workers.length ≤ rw.expected := by simp at hlt; omega
      rw [List.all_cons, hc, Bool.not_false, Bool.true_and]
      cases first
      case false => exact ih (Function.update_self ..) ht hn.2 hw' hlt'
      case true =>
        refine .next ?_
        exact ih (s := State.write _ _ _ _) (Function.update_self ..) ht hn.2 hw' hlt'

-- What the sections of a launch do when no other task runs in between: every worker of the pool
-- registers on the new run and is found there.
structure Undisturbed (s : State) (env : Ambient) (l : Launch) (o : Outcomes) : Prop where
  inserted   : o.inserted = (s.rows l.run).isNone
  order      : o.order = env.order
  assignment : ∀ worker, (o.assignment worker).isSome
  closed     : o.closed = s.closed

theorem ends_afterReserved {counts : Option (Vector (ℕ × ℕ) workers.length)}
    (hn : (workers.map Prod.fst).Nodup) (ha : ∀ worker, (o.assignment worker).isSome)
    (hc : o.closed = s.closed) :
    Ends cfg env l.run s (afterReserved l workers counts) (spawnReserved l o s.pool workers).pool
      (spawnReserved l o s.pool workers).result := by
  rw [afterReserved, spawnReserved]
  cases workers
  case nil => exact ends_cancel _ _
  case cons w workers =>
    simp only [List.isEmpty_cons, Bool.false_eq_true, if_false]
    cases l.poolUniqueFloorViolation (w :: workers).length
    case some violation =>
      refine .next ?_
      exact ends_cancel _ _
    case none =>
      have hd : o.delivers = fun w => !s.closed w.2 :=
        funext fun w => by simp [Outcomes.delivers, ha, hc]
      refine .next ?_
      simp only [exec, afterEnqueue, Outcomes.assignPoolWorkers_eq, hd]
      refine ends_assignNext (Function.update_self ..) rfl hn (fun _ _ => AList.lookup_empty _) ?_
      exact (Nat.zero_add _).le

-- Served alone, the sections of a launch leave the pool that is described above, and reply its
-- result.
theorem ends_spawnRun (hp : cfg.poolMode) (u : Undisturbed s env l o) :
    Ends cfg env l.run s [.precheck l] (spawnRun l o s.pool s.pool).pool
      (spawnRun l o s.pool s.pool).result := by
  refine .next ?_
  simp only [exec, hp, true_and, spawnRun, u.inserted, u.order, List.append_nil]
  split
  case isTrue => exact ends_reply
  case isFalse =>
    refine .next ?_
    simp only [exec]
    cases s.rows l.run
    case some => exact ends_reply
    case none =>
      simp only [hp, not_true, if_false, Option.isNone_none, List.append_nil]
      cases hf : l.force
      case true =>
        have hw : chosen l env.order s.pool = (s.pool.reserveIdlePool (iteration env.order s.pool)
          l.run l.profile.poolWorkerCap).1 := if_pos hf
        refine .next ?_
        simp only [exec, List.append_nil]
        exact ends_afterReserved (hw ▸ chosen_nodup l env.order s.pool) u.assignment u.closed
      case false =>
        refine .next ?_
        simp only [exec, State.setRow, List.append_nil]
        cases hr : s.pool.reserveIdlePoolCapacity l.run l.profile.poolWorkerCap
          l.profile.concurrencyDemand
        case mk reservation pool =>
          cases reservation
          case reserved =>
            have hw := reserved_chosen hf env.order (congrArg Prod.fst hr)
            exact ends_afterReserved (hw ▸ chosen_nodup l env.order s.pool) u.assignment u.closed
          case insufficient => exact ends_cancel _ _

end Serves

end Controller
