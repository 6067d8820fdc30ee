import Handicap.Engine.JsonPath
import Mathlib.Data.Nat.Notation

-- The paths that a click on a value of a response suggests.
namespace Ui

open Engine (Json)

-- One step of a path: the key of an object or the index of an array.
inductive PathSegment
  | key (key : String)
  | index (index : ℕ)

def identRe : List Char → Bool
  | []     => false
  | c :: l => (c.isAlpha || c = '_') && l.all fun c => c.isAlphanum || c = '_'

def escapeBracketKey (key : List Char) : List Char :=
  key.flatMap fun ch =>
    if ch = '\\' then ['\\', '\\']
    else if ch = '\'' then ['\\', '\'']
    -- No control character may stand between quotation marks.
    else if ch.toNat < 0x20 then '\\' :: 'u' :: (Nat.toDigits 16 ch.toNat).leftpad 4 '0'
    else [ch]

def segmentText : PathSegment → List Char
  | .index i => '[' :: (toString i).toList ++ [']']
  | .key k   =>
    if identRe k.toList then '.' :: k.toList
    else '[' :: '\'' :: escapeBracketKey k.toList ++ ['\'', ']']

def segmentsToPath (segments : List PathSegment) : String :=
  .ofList ('$' :: segments.flatMap segmentText)

def entries : Json → List (PathSegment × Json)
  | .array items => items.zipIdx.map fun (v, idx) => (.index idx, v)
  | .object map  => map.map fun (key, child) => (.key key, child)
  | _            => []

-- The node at a place of the tree, with its segments.
def treeNode : List ℕ → Json → Option (List PathSegment × Json)
  | [], value     => some ([], value)
  | i :: l, value => do
    let (segment, child) ← (entries value)[i]?
    let (segments, value) ← treeNode l child
    return (segment :: segments, value)

-- No object has a key twice, and no array is longer than arrays can be.
structure Parsed (json : Json) : Prop where
  keys   : ∀ {l map}, json.node l = some (.object map) → (map.map Prod.fst).Nodup
  length : ∀ {l items}, json.node l = some (.array items) → items.length < 2 ^ 32

end Ui
