import Handicap.Shard.Basic

-- The splitters as a build with overflow checks runs them: each addition, subtraction,
-- multiplication and cast of the code is a checked one, so a single overflow, also one that a later
-- operation would undo, leaves a splitter without a result.
namespace Shard.Checked

open Word

def shardSplit (totalVus n i : ℕ) : Option (ℕ × ℕ) := do
  let base := totalVus / n
  let rem := totalVus % n
  let extra := if i < rem then 1 else 0
  let vuCount ← checkedAdd 32 base extra
  let start ← checkedMul 32 i base
  let vuOffset ← checkedAdd 32 start (min i rem)
  return (vuOffset, vuCount)

def evenCounts (totalVus n : ℕ) : Option (List ℕ) := do
  let n ← checkedCast 32 n
  (List.range n).mapM fun i => do
    let split ← shardSplit totalVus n i
    return split.2

def reclaim (overflow : ℕ) : List ℕ → List ℕ → Option (ℕ × List ℕ)
  | a :: alloc, c :: caps => do
    let cap := max c 1
    if cap < a then
      let above ← checkedSub a cap
      let overflow ← checkedAdd 32 overflow above
      let rest ← reclaim overflow alloc caps
      return (rest.1, cap :: rest.2)
    else
      let rest ← reclaim overflow alloc caps
      return (rest.1, a :: rest.2)
  | alloc, _ => some (overflow, alloc)

def redistribute (overflow : ℕ) : List ℕ → List ℕ → Option (List ℕ)
  | a :: alloc, c :: caps => do
    if overflow = 0 then
      return a :: alloc
    else
      let cap := max c 1
      let slack ← checkedSub cap a
      let add := min slack overflow
      let share ← checkedAdd 32 a add
      let overflow ← checkedSub overflow add
      let rest ← redistribute overflow alloc caps
      return share :: rest
  | alloc, _ => some alloc

def capacitySplit (totalVus : ℕ) (caps : List ℕ) : Option (List ℕ) := do
  let n := caps.length
  if n = 0 then
    return []
  else
    let even ← evenCounts totalVus n
    let reclaimed ← reclaim 0 even caps
    redistribute reclaimed.1 reclaimed.2 caps

def handOut (remUnits : ℕ) : List (ℕ × ℕ) → List ℕ → Option (List ℕ)
  | (_, i) :: rems, alloc => do
    if remUnits = 0 then
      return alloc
    else
      let share ← alloc[i]?
      let bumped ← checkedAdd 32 share 1
      let remUnits ← checkedSub remUnits 1
      handOut remUnits rems (alloc.set i bumped)
  | [], alloc => some alloc

def proportionalSplit (total : ℕ) (weights : List ℕ) : Option (List ℕ) := do
  let n := weights.length
  if n = 0 then
    return []
  else
    let sumW ← checkedSum 64 weights
    if sumW = 0 then
      evenCounts total n
    else
      let nums ← weights.mapM (checkedMul 64 total ·)
      let alloc ← nums.mapM (checkedCast 32 <| · / sumW)
      let rems := (nums.map (· % sumW)).zipIdx
      let assigned ← checkedSum 64 (nums.map (· / sumW))
      let remUnits ← checkedSub total assigned
      handOut remUnits (rems.insertionSort fun a b => (remainderOrder a b).isLE) alloc

def proportionalSplitMin1 (total : ℕ) (weights : List ℕ) : Option (List ℕ) := do
  let n := weights.length
  if n = 0 then
    return []
  else
    let sumW ← checkedSum 64 weights
    if total < n ∨ sumW = 0 then
      proportionalSplit total weights
    else
      let n ← checkedCast 32 n
      let remaining ← checkedSub total n
      let extra ← proportionalSplit remaining weights
      extra.mapM (checkedAdd 32 · 1)

end Shard.Checked
