import Handicap.Engine.Cast
import Handicap.Ui.Conditions

open Engine (Json)

-- The casts of JSON bodies, as the editor reads them.
namespace Ui

def castKeywords : List String :=
  ["str", "num", "bool", "json"]

def isNoBrace (c : Char) : Bool :=
  c ≠ '{' && c ≠ '}'

def flowToken : Pattern where
  before := .seq (.literal ['{', '{']) (.many isJsSpace)
  group  := .few isNoBrace
  after  := .seq (.many isJsSpace) (.literal ['}', '}'])

def envToken : Pattern where
  before := .literal ['$', '{']
  group  := .many (· ≠ '}')
  after  := .literal ['}']

-- The patterns for a text that is one token and nothing else.
def pureFlow : Pattern :=
  flowToken.whole

def pureEnv : Pattern :=
  envToken.whole

def trailingCastRe : Pattern where
  before := .seq (.alt .start (.one (· ≠ '-'))) (.seq (.one (· = ':')) (.many isJsSpace))
  group  := .seq (.one Char.isAlpha) (.many Char.isAlphanum)
  after  := .stop

-- The keyword at the end of a token. A dash before the colon begins a default.
def trailingCast (inner : List Char) : Option String :=
  (trailingCastRe.exec inner).map String.ofList

-- What becomes of the cast of a token, where only the token of a text that has no other is cast.
def castError (s : String) (standalone : Option (List Char)) («open» close : String)
    (inner : List Char) : Option String :=
  (trailingCast inner).bind fun cast =>
    if cast ∉ castKeywords then
      some (s!"unknown cast ':{cast}' in " ++ «open» ++ String.ofList inner ++ close ++
        " — use :num, :bool, :str, or :json")
    else if standalone ≠ some inner then
      some s!"cast ':{cast}' only applies to a standalone value, not inside \"{s}\""
    else none

def checkLeaf (s : String) : List String :=
  let trimmed := (jsTrim s).toList
  (flowToken.findAll s.toList).filterMap (castError s (pureFlow.exec trimmed) "\x7b\x7b" "\x7d\x7d") ++
    (envToken.findAll s.toList).filterMap (castError s (pureEnv.exec trimmed) "$\x7b" "\x7d")

mutual

def jsonBodyCastErrors : Json → List String
  | .string s     => checkLeaf s
  | .array items  => itemErrors items
  | .object map   => entryErrors map
  | .null         => []
  | .bool _       => []
  | .number _     => []

def itemErrors : List Json → List String
  | []            => []
  | item :: items => jsonBodyCastErrors item ++ itemErrors items

def entryErrors : List (String × Json) → List String
  | []              => []
  | (_, item) :: map => jsonBodyCastErrors item ++ entryErrors map

end

-- The name of the variable in a token, and its cast.
def splitFlowToken (inner : List Char) : String × Option String :=
  match (trailingCast inner).filter (· ∈ castKeywords) with
  | some cast =>
    let base := ((Engine.rsplitOnce ':' inner).map Prod.fst).getD inner
    (.ofList (Text.strip isJsSpace base), some cast)
  | none      => (.ofList (Text.strip isJsSpace inner), none)

end Ui
