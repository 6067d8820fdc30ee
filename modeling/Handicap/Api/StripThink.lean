import Handicap.Engine.Serde

open Engine Store

-- Scenarios without think times, for runs that ignore them.
namespace Api

mutual

-- Whether a think time has been taken out comes with the result.
def stripStepThink : Step → Step × Bool
  | .http step                                     =>
    (.http { step with thinkTime := none }, step.thinkTime.isSome)
  | .loop id name repeats body                     =>
    let (body, changed) := stripStepsThink body
    (.loop id name repeats body, changed)
  | .ifStep id name cond thenSteps elifs elseSteps =>
    let (thenSteps, thenChanged) := stripStepsThink thenSteps
    let (elifs, elifChanged) := stripElifsThink elifs
    let (elseSteps, elseChanged) := stripStepsThink elseSteps
    (.ifStep id name cond thenSteps elifs elseSteps, thenChanged || elifChanged || elseChanged)
  | .parallel id name branches                     =>
    let (branches, changed) := stripBranchesThink branches
    (.parallel id name branches, changed)

def stripStepsThink : List Step → List Step × Bool
  | []            => ([], false)
  | step :: steps =>
    let (step, changed) := stripStepThink step
    let (steps, othersChanged) := stripStepsThink steps
    (step :: steps, changed || othersChanged)

def stripElifsThink : List (Condition × List Step) → List (Condition × List Step) × Bool
  | []                     => ([], false)
  | (cond, steps) :: elifs =>
    let (steps, changed) := stripStepsThink steps
    let (elifs, othersChanged) := stripElifsThink elifs
    ((cond, steps) :: elifs, changed || othersChanged)

def stripBranchesThink : List (String × List Step) → List (String × List Step) × Bool
  | []                        => ([], false)
  | (name, steps) :: branches =>
    let (steps, changed) := stripStepsThink steps
    let (branches, othersChanged) := stripBranchesThink branches
    ((name, steps) :: branches, changed || othersChanged)

end

def stripScenarioThink (s : Scenario) : Scenario × Bool :=
  let (steps, changed) := stripStepsThink s.steps
  ({ s with defaultThinkTime := none, steps }, s.defaultThinkTime.isSome || changed)

-- A text that is sent to workers as it is, unless think times have to be taken out of it.
def maybeStripThink (yaml : YamlText) (lib : DeclLib) (text : String) (profile : Profile) :
    String :=
  if !(profile.isOpenLoop && !profile.applyScenarioThinkTime) then
    text
  else
    match fromYaml yaml lib text with
    | .error _ => text
    | .ok s    =>
      let (s, changed) := stripScenarioThink s
      if changed then (s.toYaml yaml).toOption.getD text else text

end Api
