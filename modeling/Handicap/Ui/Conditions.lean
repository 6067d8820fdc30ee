import Handicap.Library.Regex
import Handicap.Monitor.Config
import Handicap.Ui.Store

open Monitor (Condition ConditionOp ConditionSource f64Overflow)

-- The form for the conditions of a monitor board.
namespace Ui

def jsTrim : String → String :=
  Text.trim isJsSpace

-- The candidates of a comparison with several values, as the form takes them.
def oneOfCandidates (value : String) : List String :=
  ((value.toList.splitOn ',').map fun l => jsTrim (.ofList l)).filter (· ≠ "")

def isSign (c : Char) : Bool :=
  c = '+' || c = '-'

def numberRe : Pattern where
  before := .seq .start (.opt (.one isSign))
  group  :=
    .alt (.seq (.plus Char.isDigit) (.seq (.opt (.one (· = '.'))) (.many Char.isDigit)))
      (.seq (.one (· = '.')) (.plus Char.isDigit))
  after  :=
    .seq (.opt (.seq (.one fun c => c = 'e' || c = 'E')
      (.seq (.opt (.one isSign)) (.plus Char.isDigit)))) .stop

-- The number of a text that matches is what it spells.
def isFiniteNumberText (s : String) : Bool :=
  let t := (jsTrim s).toList
  numberRe.test t && (Text.decimal t).any fun q => |q| < f64Overflow

def normalizeCondition (c : Condition) : Condition :=
  { c with
    path :=
      match c.source with
      | .header => jsTrim c.path
      | .body   => c.path
      | _       => ""
    value      := if c.op.needsValue then c.value else ""
    ignoreCase := c.op.hasFlags && c.ignoreCase
    trim       := c.op.hasFlags && c.trim }

-- The errors of the form, as the keys of their texts.
inductive ConditionError
  | path
  | tooLong
  | value
  | number
  | oneOf
  deriving DecidableEq

def pathError (c : Condition) : Option ConditionError :=
  match c.source with
  | .body   =>
    if c.path.length < 1 ∨ 500 < c.path.length ∨ c.path.toList.head? ≠ some '$' then some .path
    else none
  | .header =>
    if (jsTrim c.path).length < 1 ∨ 200 < (jsTrim c.path).length then some .path else none
  | _       => none

def valueError (op : ConditionOp) (value : String) : Option ConditionError :=
  if 200 < value.length then some .tooLong
  else if op = .contains ∧ value = "" then some .value
  else if op.isOrder ∧ isFiniteNumberText value = false then some .number
  else if op = .oneOf ∧ oneOfCandidates value = [] then some .oneOf
  else none

def conditionError (c : Condition) : Option ConditionError :=
  (pathError c).or (valueError c.op c.value)

end Ui
