import Handicap.Engine.Scenario

open Engine (Condition HttpMethod HttpStep Scenario Step)
open Store (ThinkTime)

-- The board of think times.
namespace Ui

inductive ThinkState
  | inherited
  | inheritedNone
  | override
  | noWait
  | parallelUnset
  deriving DecidableEq

-- A step with no effective think time does not wait.
structure ThinkRow where
  stepId         : String
  name           : String
  method         : HttpMethod
  url            : String
  path           : String
  state          : ThinkState
  configured     : Option ThinkTime
  effective      : Option ThinkTime
  insideParallel : Bool

def condThen : String :=
  "Then"

def condElse : String :=
  "Else"

def elifLabel (n : ℕ) : String :=
  s!"Elif {n}"

def isNoWait (t : ThinkTime) : Bool :=
  t.minMs.val = 0 ∧ t.maxMs.val = 0

def normalizeEffective (t : ThinkTime) : Option ThinkTime :=
  if isNoWait t then none else some t

def classifyThink (step : HttpStep) (defaultThink : Option ThinkTime) (insideParallel : Bool) :
    ThinkState × Option ThinkTime × Bool :=
  match step.thinkTime with
  | some own =>
    (if isNoWait own then .noWait else .override, normalizeEffective own, insideParallel)
  | none     =>
    if insideParallel then (.parallelUnset, none, insideParallel)
    else
      match defaultThink with
      | none   => (.inheritedNone, none, insideParallel)
      | some t => (.inherited, normalizeEffective t, insideParallel)

def thinkRow (defaultThink : Option ThinkTime) (path : List String) (insideParallel : Bool)
    (step : HttpStep) : ThinkRow :=
  let (state, effective, insideParallel) := classifyThink step defaultThink insideParallel
  { stepId     := step.id
    name       := step.name
    method     := step.request.method
    url        := step.request.url
    path       := " / ".intercalate path
    configured := step.thinkTime
    state, effective, insideParallel }

section

variable (defaultThink : Option ThinkTime)

mutual

def visitStep (path : List String) (insideParallel : Bool) : Step → List ThinkRow
  | .http step                                 => [thinkRow defaultThink path insideParallel step]
  | .loop _ name _ body                        => visitSteps (path ++ [name]) insideParallel body
  | .ifStep _ name _ thenSteps elifs elseSteps =>
    visitSteps (path ++ [s!"{name}·{condThen}"]) insideParallel thenSteps ++
      visitElifs path name 1 insideParallel elifs ++
      visitSteps (path ++ [s!"{name}·{condElse}"]) insideParallel elseSteps
  | .parallel _ name branches                  => visitBranches path name branches

def visitSteps (path : List String) (insideParallel : Bool) : List Step → List ThinkRow
  | []            => []
  | step :: steps => visitStep path insideParallel step ++ visitSteps path insideParallel steps

-- The elifs are counted from one.
def visitElifs (path : List String) (name : String) (n : ℕ) (insideParallel : Bool) :
    List (Condition × List Step) → List ThinkRow
  | []                  => []
  | (_, steps) :: elifs =>
    visitSteps (path ++ [s!"{name}·{elifLabel n}"]) insideParallel steps ++
      visitElifs path name (n + 1) insideParallel elifs

def visitBranches (path : List String) (name : String) : List (String × List Step) → List ThinkRow
  | []                          => []
  | (branch, steps) :: branches =>
    visitSteps (path ++ [s!"{name}·{branch}"]) true steps ++ visitBranches path name branches

end

end

def buildThinkRows (sc : Scenario) : List ThinkRow :=
  visitSteps sc.defaultThinkTime [] false sc.steps

end Ui
