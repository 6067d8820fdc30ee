import Handicap.Engine.Render
import Handicap.Engine.Scenario

open Store (F64)

-- Conditions, and the branches that they choose.
namespace Engine

-- What other libraries do: JSON, JSONPath, Base64, regular expressions, numbers, and the names and
-- values of headers. Where they refuse a text, there is no result, or the error as a text.
structure Libraries where
  fromStr     : String → Option Json
  fromSlice   : List UInt8 → Except String Json
  print       : Json → String
  debug       : String → String
  jsonPath    : String → Option (Json → List Json)
  base64      : (urlSafe : Bool) → String → Option (List UInt8)
  regex       : String → Option (String → Bool)
  parseF64    : String → Option F64
  headerName  : String → Except String String
  headerValue : String → Except String String

def lessThan : F64 → F64 → Bool
  | .finite a, .finite b          => a < b
  | .finite _, .infinite negative => !negative
  | .infinite negative, .finite _ => negative
  | .infinite a, .infinite b      => a && !b
  | _, _                          => false

def atMost (a b : F64) : Bool :=
  lessThan a b || (a ≠ .nan && a = b)

variable (lib : Libraries) (ctx : TemplateContext)

def compareNumbers (holds : F64 → F64 → Bool) (l r : String) : Bool :=
  match lib.parseF64 l, lib.parseF64 r with
  | some a, some b => holds a b
  | _, _           => false

-- An operand that is missing is empty, and a regular expression that cannot be read matches
-- nothing.
def evalCompare (left : String) (op : CompareOp) (right : Option String) : Bool :=
  let l := renderLenient left ctx
  let r := (right.map fun r => renderLenient r ctx).getD ""
  match op with
  | .exists   => l ≠ ""
  | .empty    => l = ""
  | .eq       => l = r
  | .ne       => l ≠ r
  | .contains => r = "" || contains r.toList l.toList
  | .matches  =>
    match lib.regex r with
    | some isMatch => isMatch l
    | none         => false
  | .lt       => compareNumbers lib lessThan l r
  | .gt       => compareNumbers lib (fun a b => lessThan b a) l r
  | .lte      => compareNumbers lib atMost l r
  | .gte      => compareNumbers lib (fun a b => atMost b a) l r

mutual

def evalCondition : Condition → Bool
  | .all conditions        => evalAll conditions
  | .any conditions        => evalAny conditions
  | .compare left op right => evalCompare lib ctx left op right

def evalAll : List Condition → Bool
  | []           => true
  | cond :: rest => evalCondition cond && evalAll rest

def evalAny : List Condition → Bool
  | []           => false
  | cond :: rest => evalCondition cond || evalAny rest

end

-- The branch of an if step that is taken.
inductive Taken
  | thenBranch
  | elif (j : ℕ)
  | elseBranch
  | none
  deriving DecidableEq

def Taken.label : Taken → String
  | thenBranch => "then"
  | elif j     => s!"elif_{j}"
  | elseBranch => "else"
  | none       => "none"

def selectBranch (cond : Condition) (elifs : List (Condition × List Step))
    (elseSteps : List Step) : Taken :=
  if evalCondition lib ctx cond then .thenBranch
  else
    match elifs.findIdx? fun e => evalCondition lib ctx e.1 with
    | some j => .elif j
    | none   => if elseSteps.isEmpty then .none else .elseBranch

end Engine
