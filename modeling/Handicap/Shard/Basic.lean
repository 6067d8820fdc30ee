import Handicap.Library.Word
import Mathlib.Algebra.Order.Floor.Div
import Mathlib.Data.List.Sort

-- The fan-out arithmetic: how many workers a run gets, and how its VUs and its rates are divided
-- among them. A u32 or u64 of the source is a `Word` of its width.
namespace Shard

def workerCount (totalVus capacity : ℕ) : ℕ :=
  let cap := max capacity 1
  max (totalVus ⌈/⌉ cap) 1

def shardSplit (totalVus n i : ℕ) : ℕ × ℕ :=
  let base := totalVus / n
  let rem := totalVus % n
  let extra := if i < rem then 1 else 0
  let vuCount := Word.add 32 base extra
  let vuOffset := Word.add 32 (Word.mul 32 i base) (min i rem)
  (vuOffset, vuCount)

def datasetSlice (isUnique : Bool) (total shardCount shardIndex : ℕ) : ℕ × ℕ :=
  if isUnique then shardSplit (Word.cast 32 total) shardCount shardIndex else (0, total)

def achievableCapacity (caps : List ℕ) : ℕ :=
  caps.foldl (fun acc c => Word.saturatingAdd 32 acc (max c 1)) 0

-- The even start of the splitters below: the VU counts of `shardSplit` for `n` workers.
def evenCounts (totalVus n : ℕ) : List ℕ :=
  (List.range (Word.cast 32 n)).map fun i => (shardSplit totalVus (Word.cast 32 n) i).2

-- Takes back what workers hold above their caps, together with the new allocation.
def reclaim (overflow : ℕ) : List ℕ → List ℕ → ℕ × List ℕ
  | a :: alloc, c :: caps =>
    let cap := max c 1
    if cap < a then
      let (overflow, alloc) := reclaim (Word.add 32 overflow (Word.sub 32 a cap)) alloc caps
      (overflow, cap :: alloc)
    else
      let (overflow, alloc) := reclaim overflow alloc caps
      (overflow, a :: alloc)
  | alloc, _ => (overflow, alloc)

-- Hands the overflow to the workers that are under their caps, in index order.
def redistribute (overflow : ℕ) : List ℕ → List ℕ → List ℕ
  | a :: alloc, c :: caps =>
    if overflow = 0 then
      a :: alloc
    else
      let cap := max c 1
      let add := min (Word.sub 32 cap a) overflow
      Word.add 32 a add :: redistribute (Word.sub 32 overflow add) alloc caps
  | alloc, _ => alloc

def capacitySplit (totalVus : ℕ) (caps : List ℕ) : List ℕ :=
  let n := caps.length
  if n = 0 then
    []
  else
    let (overflow, alloc) := reclaim 0 (evenCounts totalVus n) caps
    redistribute overflow alloc caps

-- Largest remainder first, ascending index on ties.
def remainderOrder (a b : ℕ × ℕ) : Ordering :=
  (compare b.1 a.1).then (compare a.2 b.2)

-- One more for the worker of each leading remainder, until the units are used up.
def handOut (remUnits : ℕ) : List (ℕ × ℕ) → List ℕ → List ℕ
  | (_, i) :: rems, alloc =>
    if remUnits = 0 then
      alloc
    else
      handOut (Word.sub 64 remUnits 1) rems (alloc.modify i (Word.add 32 · 1))
  | [], alloc => alloc

def proportionalSplit (total : ℕ) (weights : List ℕ) : List ℕ :=
  let n := weights.length
  let sumW := Word.sum 64 weights
  if n = 0 then
    []
  else if sumW = 0 then
    evenCounts total n
  else
    let nums := weights.map (Word.mul 64 total ·)
    let alloc := nums.map (Word.cast 32 <| · / sumW)
    let rems := (nums.map (· % sumW)).zipIdx
    let assigned := Word.sum 64 (nums.map (· / sumW))
    let remUnits := Word.sub 64 total assigned
    handOut remUnits (rems.insertionSort fun a b => (remainderOrder a b).isLE) alloc

def proportionalSplitMin1 (total : ℕ) (weights : List ℕ) : List ℕ :=
  let n := weights.length
  let sumW := Word.sum 64 weights
  if n = 0 then
    []
  else if total < n ∨ sumW = 0 then
    proportionalSplit total weights
  else
    let extra := proportionalSplit (Word.sub 32 total (Word.cast 32 n)) weights
    extra.map (Word.add 32 · 1)

end Shard
