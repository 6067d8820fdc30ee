import Handicap.Coordinator.Run
import Handicap.Shard.Theorems

open Store

-- The pool of workers that registered without a run, and its critical sections: each function below
-- is one section under the lock of the pool map.
namespace Coordinator

structure PoolEntry where
  tx               : Tx
  capacityVus      : U32
  hostname         : String
  assignedRun      : Option RunId
  drained          : Bool
  capacityOverride : Option U32
  label            : Option String
  stable           : Bool
  deriving DecidableEq

namespace PoolEntry

def effectiveCapacityVus (e : PoolEntry) : U32 :=
  e.capacityOverride.getD e.capacityVus

def isIdle (e : PoolEntry) : Bool :=
  e.assignedRun.isNone && !e.drained

end PoolEntry

-- The operator settings of a worker with a stable id, as they are persisted.
structure PoolOverride where
  drained          : Bool
  capacityOverride : Option U32
  label            : Option String
  deriving DecidableEq

inductive PoolReservation
  | reserved (workers : List (WorkerId × Tx)) (counts : Vector (ℕ × ℕ) workers.length)
  | insufficient (achievable : ℕ)

-- The offset of each count is the sum of the counts before it.
def prefixCounts (off : ℕ) : List ℕ → List (ℕ × ℕ)
  | []         => []
  | c :: split => (off, c) :: prefixCounts (Word.add 32 off c) split

@[simp]
theorem prefixCounts_length (off : ℕ) (split : List ℕ) :
    (prefixCounts off split).length = split.length := by
  induction split generalizing off <;> simp_all [prefixCounts]

abbrev Pool := AList fun _ : WorkerId => PoolEntry

namespace Pool

variable (pool : Pool)

def modify (worker : WorkerId) (f : PoolEntry → PoolEntry) : Pool :=
  match pool.lookup worker with
  | some e => pool.insert worker (f e)
  | none   => pool

def modifyAll (workers : List WorkerId) (f : PoolEntry → PoolEntry) : Pool :=
  workers.foldl (fun pool worker => pool.modify worker f) pool

-- A worker that comes back keeps the operator settings of its entry; a new one takes the persisted
-- settings. Either way the worker is idle.
def registerIdle (worker : WorkerId) (tx : Tx) (capacityVus : U32) (hostname : String)
    (stable : Bool) (restored : Option PoolOverride) : Pool :=
  match pool.lookup worker with
  | some e =>
    pool.insert worker { e with tx, capacityVus, hostname, assignedRun := none, stable }
  | none =>
    let o := restored.getD ⟨false, none, none⟩
    pool.insert worker
      ⟨tx, capacityVus, hostname, none, o.drained, o.capacityOverride, o.label, stable⟩

def isIdle (worker : WorkerId) : Bool :=
  (pool.lookup worker).any PoolEntry.isIdle

def reserve (run : RunId) (workers : List WorkerId) : Pool :=
  pool.modifyAll workers ({ · with assignedRun := some run })

def txsOf (workers : List WorkerId) : List (WorkerId × Tx) :=
  workers.filterMap fun worker => (pool.lookup worker).map fun e => (worker, e.tx)

-- The map is iterated in the given order of its keys.
def reserveIdlePool (order : List WorkerId) (run : RunId) (cap : ℕ) :
    List (WorkerId × Tx) × Pool :=
  let ids := (order.filter pool.isIdle).take cap
  (pool.txsOf ids, pool.reserve run ids)

-- The idle workers, ordered by their ids.
def idle : List (WorkerId × PoolEntry) :=
  ((pool.entries.filter (·.2.isIdle)).map fun e => (e.1, e.2)).insertionSort
    fun a b => ¬b.1 < a.1

-- The first idle workers, as many as the load needs.
def candidates (workerCap : U32) : List (WorkerId × PoolEntry) :=
  pool.idle.take workerCap

def caps (workers : List (WorkerId × PoolEntry)) : List ℕ :=
  workers.map (·.2.effectiveCapacityVus)

def achievableCapacity (workerCap : U32) : ℕ × ℕ :=
  (pool.idle.length, Shard.achievableCapacity (caps (pool.candidates workerCap)))

-- The consecutive slices of the slots that the candidates get.
def slices (workerCap slotTotal : U32) : List (ℕ × ℕ) :=
  prefixCounts 0 (Shard.capacitySplit slotTotal (caps (pool.candidates workerCap)))

theorem caps_length_lt (workerCap : U32) : (caps (pool.candidates workerCap)).length < 2 ^ 32 := by
  simp [caps, candidates]

theorem slices_length (workerCap slotTotal : U32) :
    (pool.slices workerCap slotTotal).length = (pool.candidates workerCap).length := by
  rw [slices, prefixCounts_length, Shard.capacitySplit_length _ (pool.caps_length_lt workerCap),
    caps, List.length_map]

def reserveIdlePoolCapacity (run : RunId) (workerCap slotTotal : U32) : PoolReservation × Pool :=
  if pool.idle.isEmpty then
    (.reserved [] #v[], pool)
  else
    let chosen := pool.candidates workerCap
    let achievable := Shard.achievableCapacity (caps chosen)
    if achievable < slotTotal then
      (.insufficient achievable, pool)
    else
      let counts := (pool.slices workerCap slotTotal).toArray
      let workers := chosen.map fun w => (w.1, w.2.tx)
      have h : counts.size = workers.length := by simp [counts, workers, slices_length, chosen]
      (.reserved workers ⟨counts, h⟩, pool.reserve run (chosen.map Prod.fst))

def releasePoolReservation (workers : List (WorkerId × Tx)) : Pool :=
  pool.modifyAll (workers.map Prod.fst) ({ · with assignedRun := none })

-- Removes the worker, with the run that it was assigned to.
def disconnect (worker : WorkerId) : Option RunId × Pool :=
  ((pool.lookup worker).bind (·.assignedRun), pool.erase worker)

def setControl (worker : WorkerId) (drained : Option Bool) (capacityOverride : Option (Option U32))
    (label : Option (Option String)) : Pool :=
  pool.modify worker fun e =>
    { e with
      drained := drained.getD e.drained
      capacityOverride := capacityOverride.getD e.capacityOverride
      label := label.getD e.label }

end Pool

end Coordinator
