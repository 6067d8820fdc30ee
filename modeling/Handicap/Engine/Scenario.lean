import Handicap.Engine.Cast
import Handicap.Engine.GenVars

open Store (ThinkTime)

-- Scenarios.
namespace Engine

inductive HttpMethod
  | get
  | post
  | put
  | patch
  | delete
  | head
  | options
  deriving DecidableEq

-- The fields of a form, like the headers, are in the order of their keys.
inductive Body
  | json (value : Json)
  | form (fields : List (String × String))
  | raw (text : String)

-- Rows that are kept with a request and never sent.
structure DisabledRows where
  headers : List (String × String)
  form    : List (String × String)

structure Request where
  method   : HttpMethod
  url      : String
  headers  : List (String × String)
  body     : Option Body
  disabled : DisabledRows

inductive Assertion
  | status (code : ℕ)
  deriving DecidableEq

inductive Decode
  | base64
  | jwt
  deriving DecidableEq

inductive Extract
  | body (var path : String) (decode : Option Decode) (claim : Option String)
  | header (var name : String) (decode : Option Decode) (claim : Option String)
  | cookie (var name : String) (decode : Option Decode) (claim : Option String)
  | status (var : String)
  deriving DecidableEq

-- The variable that an extract writes.
def Extract.var : Extract → String
  | body var _ _ _   => var
  | header var _ _ _ => var
  | cookie var _ _ _ => var
  | status var       => var

inductive CompareOp
  | eq
  | ne
  | contains
  | matches
  | lt
  | gt
  | lte
  | gte
  | exists
  | empty
  deriving DecidableEq

inductive Condition
  | compare (left : String) (op : CompareOp) (right : Option String)
  | all (conditions : List Condition)
  | any (conditions : List Condition)

structure HttpStep where
  id             : String
  name           : String
  request        : Request
  assertions     : List Assertion
  extract        : List Extract
  timeoutSeconds : Option ℕ
  thinkTime      : Option ThinkTime

-- An elif comes with its condition, and a branch of a parallel step with its name.
inductive Step
  | http (step : HttpStep)
  | loop (id name : String) (repeats : ℕ) (body : List Step)
  | ifStep (id name : String) (cond : Condition) (thenSteps : List Step)
      (elifs : List (Condition × List Step)) (elseSteps : List Step)
  | parallel (id name : String) (branches : List (String × List Step))

structure Scenario where
  version          : ℕ
  name             : String
  varDecls         : List (String × VarDecl)
  cookieJar        : Bool
  defaultThinkTime : Option ThinkTime
  notes            : Option String
  steps            : List Step

mutual

-- The variables that the steps of a branch extract, without those of parallel steps in it.
def Step.outputVarNames : Step → List String
  | .http step                              => step.extract.map Extract.var
  | .loop _ _ _ body                        => collectOutputVarNames body
  | .ifStep _ _ _ thenSteps elifs elseSteps =>
    collectOutputVarNames thenSteps ++ elifOutputVarNames elifs ++ collectOutputVarNames elseSteps
  | .parallel _ _ _                         => []

def collectOutputVarNames : List Step → List String
  | []            => []
  | step :: steps => step.outputVarNames ++ collectOutputVarNames steps

def elifOutputVarNames : List (Condition × List Step) → List String
  | []                  => []
  | (_, steps) :: elifs => collectOutputVarNames steps ++ elifOutputVarNames elifs

end

mutual

-- The HTTP steps, in the order of the text.
def Step.https : Step → List HttpStep
  | .http step                              => [step]
  | .loop _ _ _ body                        => collectHttp body
  | .ifStep _ _ _ thenSteps elifs elseSteps =>
    collectHttp thenSteps ++ collectElifHttp elifs ++ collectHttp elseSteps
  | .parallel _ _ branches                  => collectBranchHttp branches

def collectHttp : List Step → List HttpStep
  | []            => []
  | step :: steps => step.https ++ collectHttp steps

def collectElifHttp : List (Condition × List Step) → List HttpStep
  | []                  => []
  | (_, steps) :: elifs => collectHttp steps ++ collectElifHttp elifs

def collectBranchHttp : List (String × List Step) → List HttpStep
  | []                     => []
  | (_, steps) :: branches => collectHttp steps ++ collectBranchHttp branches

end

end Engine
