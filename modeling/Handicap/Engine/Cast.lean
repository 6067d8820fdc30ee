import Handicap.Engine.Template
import Handicap.Engine.Yaml

-- The types that tokens of JSON bodies are cast to.
namespace Engine

inductive JsonNumber
  | int (n : YamlInt)
  | float (q : Binary64.Double)
  deriving DecidableEq

-- The entries of an object are in the order of its map.
inductive Json
  | null
  | bool (b : Bool)
  | number (n : JsonNumber)
  | string (s : String)
  | array (items : List Json)
  | object (map : List (String × Json))

inductive Cast
  | str
  | num
  | bool
  | json
  deriving DecidableEq

-- What is left between two ends of a text.
def between («open» close : List Char) (t : List Char) : Option (List Char) :=
  if «open».isPrefixOf t then
    let rest := t.drop «open».length
    if close.isSuffixOf rest then some (rest.take (rest.length - close.length)) else none
  else none

def rsplitOnce (c : Char) (l : List Char) : Option (List Char × List Char) :=
  (Text.cut [c] l.reverse).map fun p => (p.2.reverse, p.1.reverse)

def contains (needle l : List Char) : Bool :=
  (Text.cut needle l).isSome

def Cast.ofKeyword (keyword : String) : Option Cast :=
  match keyword with
  | "str"  => some .str
  | "num"  => some .num
  | "bool" => some .bool
  | "json" => some .json
  | _      => none

-- The only token of a text, with its ends.
def soleToken (t : List Char) : Option (List Char × List Char × List Char) :=
  match between ['{', '{'] ['}', '}'] t with
  | some inner =>
    if contains ['{', '{'] inner ∨ contains ['}', '}'] inner then none
    else some (['{', '{'], ['}', '}'], inner)
  | none =>
    match between ['$', '{'] ['}'] t with
    | some inner =>
      if '{' ∈ inner ∨ '}' ∈ inner ∨ '$' ∈ inner then none else some (['$', '{'], ['}'], inner)
    | none => none

-- The token without its cast, and the cast.
def parseCastLeaf (s : String) : Option (String × Cast) := do
  let («open», close, inner) ← soleToken (Text.strip Store.isWhiteSpace s.toList)
  let (name, keyword) ← rsplitOnce ':' inner
  let cast ← Cast.ofKeyword (trimmed keyword)
  return (.ofList («open» ++ Text.strip Store.isWhiteSpace name ++ close), cast)

-- The parser of texts in JSON is a library.
section

variable (fromStr : String → Option Json)

def coerceNum (v : String) : Option Json :=
  match fromStr v with
  | some (.number n) => some (.number n)
  | _                => none

def coerceBool (v : String) : Option Json :=
  match v with
  | "true"  => some (.bool true)
  | "false" => some (.bool false)
  | _       => none

def coerceJson (v : String) : Option Json :=
  fromStr v

end

example : parseCastLeaf "  {{ age : num }}  " = some ("{{age}}", .num) := by decide

end Engine
