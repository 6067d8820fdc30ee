import Handicap.Library.Word
import Handicap.Store.Profile

open Store

-- The datasets of a worker, and which row an iteration sees.
namespace Engine

structure DataSet where
  policy : BindingPolicy
  seed   : U32
  rows   : List StringMap

def splitmix64 (x : ℕ) : ℕ :=
  let x := Word.add 64 x 0x9E3779B97F4A7C15
  let z := Word.mul 64 (x ^^^ (x >>> 30)) 0xBF58476D1CE4E5B9
  let z := Word.mul 64 (z ^^^ (z >>> 27)) 0x94D049BB133111EB
  z ^^^ (z >>> 31)

def mix (seed vuId iterId : U32) : ℕ :=
  let z := splitmix64 (Word.add 64 seed vuId)
  splitmix64 (Word.add 64 z iterId)

-- The index of the row, if there is one, and the shared counter of the binding afterwards. The
-- random numbers below a bound are given for every seed. The counter is a natural number, as the
-- 2^64 draws after which it would start again cannot be made.
def DataSet.selectIndex (genRange : ℕ → ℕ → ℕ) (ds : DataSet) (vuId iterId : U32) (counter : ℕ) :
    Option ℕ × ℕ :=
  let len := ds.rows.length
  match ds.policy with
  | .perVu         => (some (vuId % len), counter)
  | .iterSequential => (some (counter % len), counter + 1)
  | .iterRandom    => (some (genRange (mix ds.seed vuId iterId) len), counter)
  | .unique        => (if len ≤ counter then none else some counter, counter + 1)

end Engine
