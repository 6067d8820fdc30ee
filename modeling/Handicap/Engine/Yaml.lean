import Handicap.Library.Binary64
import Mathlib.Algebra.Field.Rat
import Mathlib.Data.List.Basic

-- The value trees of texts.
namespace Engine

-- An integer of a tree has 64 bits, with a sign or without one.
structure YamlInt where
  val : ℤ
  lo  : -2 ^ 63 ≤ val
  hi  : val < 2 ^ 64
  deriving DecidableEq

-- An integer for which 64 bits are not enough, but 128 bits are. One that is larger still is read
-- as a number of double precision.
structure WideInt where
  val  : ℤ
  wide : val < -2 ^ 63 ∨ 2 ^ 64 ≤ val
  lo   : -2 ^ 127 ≤ val
  hi   : val < 2 ^ 128
  deriving DecidableEq

-- The numbers of a tree are finite.
inductive Yaml
  | null
  | bool (b : Bool)
  | int (n : YamlInt)
  | wide (n : WideInt)
  | float (q : Binary64.Double)
  | string (s : String)
  | sequence (items : List Yaml)
  | mapping (entries : List (String × Yaml))

def Yaml.isNull : Yaml → Bool
  | null => true
  | _    => false

-- A mapping has every key once.
structure Mapping where
  entries : List (String × Yaml)
  nodup   : (entries.map Prod.fst).Nodup

namespace Mapping

variable (m : Mapping)

def keys : List String :=
  m.entries.map Prod.fst

def get (key : String) : Option Yaml :=
  m.entries.lookup key

end Mapping

end Engine
