import Handicap.Engine.Scenario
import Handicap.Ui.Cast

open Engine (Condition Extract HttpStep Json Request Scenario Step)

-- The variables that a scenario refers to and does not define where it does. A set is the list of
-- its members in the order in which they have come.
namespace Ui

def flowVarRe : Pattern where
  before := .seq (.literal ['{', '{']) (.many isJsSpace)
  group  := .seq (.one (· ≠ '}')) (.few (· ≠ '}'))
  after  := .seq (.many isJsSpace) (.literal ['}', '}'])

def addRef (refs : List String) (name : String) : List String :=
  if name ∈ refs then refs else refs ++ [name]

def collectFromString (s : String) (refs : List String) : List String :=
  (flowVarRe.findAll s.toList).foldl (fun refs m => addRef refs (splitFlowToken m).1) refs

mutual

def collectFromJson : Json → List String → List String
  | .string s, refs    => collectFromString s refs
  | .array items, refs => collectFromItems items refs
  | .object map, refs  => collectFromEntries map refs
  | .null, refs        => refs
  | .bool _, refs      => refs
  | .number _, refs    => refs

def collectFromItems : List Json → List String → List String
  | [], refs            => refs
  | item :: items, refs => collectFromItems items (collectFromJson item refs)

def collectFromEntries : List (String × Json) → List String → List String
  | [], refs               => refs
  | (_, item) :: map, refs => collectFromEntries map (collectFromJson item refs)

end

def collectFields (fields : List (String × String)) (refs : List String) : List String :=
  fields.foldl (fun refs field => collectFromString field.2 refs) refs

def collectRequestRefs (request : Request) : List String :=
  let refs := collectFields request.headers (collectFromString request.url [])
  match request.body with
  | some (.raw text)    => collectFromString text refs
  | some (.form fields) => collectFields fields refs
  | some (.json value)  => collectFromJson value refs
  | none                => refs

mutual

def collectCondRefs : Condition → List String → List String
  | .all conditions, refs      => collectAllCondRefs conditions refs
  | .any conditions, refs      => collectAllCondRefs conditions refs
  | .compare left _ right, refs =>
    let refs := collectFromString left refs
    right.elim refs fun right => collectFromString right refs

def collectAllCondRefs : List Condition → List String → List String
  | [], refs              => refs
  | cond :: conditions, refs => collectAllCondRefs conditions (collectCondRefs cond refs)

end

mutual

-- The variables that are extracted outside of parallel steps.
def Step.extractNames : Step → List String
  | .http step                              => step.extract.map Extract.var
  | .loop _ _ _ body                        => collectSubtreeExtractNames body
  | .ifStep _ _ _ thenSteps elifs elseSteps =>
    collectSubtreeExtractNames thenSteps ++ elifExtractNames elifs ++
      collectSubtreeExtractNames elseSteps
  | .parallel _ _ _                         => []

def collectSubtreeExtractNames : List Step → List String
  | []            => []
  | step :: steps => Step.extractNames step ++ collectSubtreeExtractNames steps

def elifExtractNames : List (Condition × List Step) → List String
  | []                  => []
  | (_, steps) :: elifs => collectSubtreeExtractNames steps ++ elifExtractNames elifs

end

def flatExtractNames (scenario : Scenario) : List String :=
  collectSubtreeExtractNames scenario.steps

def flatProducerNames (scenario : Scenario) : List String :=
  flatExtractNames scenario ++ scenario.varDecls.map Prod.fst

def Step.branches : Step → List (String × List Step)
  | .parallel _ _ branches => branches
  | _                      => []

def collectNamespacedProducers (scenario : Scenario) : List String :=
  scenario.steps.flatMap fun step =>
    (Step.branches step).flatMap fun branch =>
      (Engine.collectHttp branch.2).flatMap fun http =>
        http.extract.map fun e => s!"{branch.1}.{e.var}"

-- What a branch extracts itself, and its parallel step.
structure Own where
  nodeId : String
  names  : List String

structure Occurrences where
  stepIds       : List String
  sawDownstream : Bool
  sawStrict     : Bool
  ownerNodeIds  : List String

def Occurrences.note (stepId : String) (insideBranch : Bool) (ownerNodeId : Option String)
    (strict : Bool) (a : Occurrences) : Occurrences where
  stepIds       := a.stepIds ++ [stepId]
  sawDownstream := a.sawDownstream || !insideBranch
  sawStrict     := a.sawStrict || strict
  ownerNodeIds  := if insideBranch then ownerNodeId.elim a.ownerNodeIds (addRef a.ownerNodeIds)
                   else a.ownerNodeIds

-- An entry that is new comes last.
def recordRef (name stepId : String) (insideBranch : Bool) (ownerNodeId : Option String)
    (strict : Bool) : List (String × Occurrences) → List (String × Occurrences)
  | []          =>
    [(name, Occurrences.note stepId insideBranch ownerNodeId strict ⟨[], false, false, []⟩)]
  | (n, a) :: acc =>
    if n = name then (n, a.note stepId insideBranch ownerNodeId strict) :: acc
    else (n, a) :: recordRef name stepId insideBranch ownerNodeId strict acc

section

variable (flatBase namespaced : List String)

-- A name with a dot is one of a branch, wherever it is referred to.
def judgeRef (stepId : String) (own : Option Own) (strict : Bool)
    (acc : List (String × Occurrences)) (name : String) : List (String × Occurrences) :=
  if name ∈ flatBase then acc
  else if '.' ∈ name.toList then
    if name ∈ namespaced then acc else recordRef name stepId false none strict acc
  else if own.any (name ∈ ·.names) then acc
  else recordRef name stepId own.isSome (own.map Own.nodeId) strict acc

def judge (refs : List String) (stepId : String) (own : Option Own) (strict : Bool)
    (acc : List (String × Occurrences)) : List (String × Occurrences) :=
  refs.foldl (judgeRef flatBase namespaced stepId own strict) acc

mutual

def walkOne : Step → Option Own → List (String × Occurrences) → List (String × Occurrences)
  | .http step, own, acc              =>
    judge flatBase namespaced (collectRequestRefs step.request) step.id own true acc
  | .loop _ _ _ body, own, acc        => walk body own acc
  | .parallel id _ branches, _, acc   => walkBranches id branches acc
  | .ifStep id _ cond thenSteps elifs elseSteps, own, acc =>
    let refs := elifs.foldl (fun refs e => collectCondRefs e.1 refs) (collectCondRefs cond [])
    let acc := judge flatBase namespaced refs id own false acc
    walk elseSteps own (walkElifs elifs own (walk thenSteps own acc))

def walk : List Step → Option Own → List (String × Occurrences) → List (String × Occurrences)
  | [], _, acc              => acc
  | step :: steps, own, acc => walk steps own (walkOne step own acc)

def walkElifs : List (Condition × List Step) → Option Own → List (String × Occurrences) →
    List (String × Occurrences)
  | [], _, acc                    => acc
  | (_, steps) :: elifs, own, acc => walkElifs elifs own (walk steps own acc)

def walkBranches (id : String) : List (String × List Step) → List (String × Occurrences) →
    List (String × Occurrences)
  | [], acc                     => acc
  | (_, steps) :: branches, acc =>
    walkBranches id branches (walk steps (some ⟨id, collectSubtreeExtractNames steps⟩) acc)

end

end

inductive RefKind
  | downstream
  | sibling
  deriving DecidableEq

structure UndefinedRef where
  stepIds      : List String
  candidates   : List String
  kind         : RefKind
  hasStrictRef : Bool
  deriving DecidableEq

-- The branches of the parallel steps at the top, with their names.
def branchOwn (scenario : Scenario) : List (String × Own) :=
  scenario.steps.flatMap fun step =>
    match step with
    | .parallel id _ branches =>
      branches.map fun b => (b.1, ⟨id, collectSubtreeExtractNames b.2⟩)
    | _                       => []

def undefinedVarRefs (scenario : Scenario) : List (String × UndefinedRef) :=
  let own := branchOwn scenario
  let extracting (name : String) := own.filter fun b => name ∈ b.2.names
  (walk (flatProducerNames scenario) (collectNamespacedProducers scenario) scenario.steps none []).map
    fun e => (e.1, {
      stepIds      := e.2.stepIds
      candidates   :=
        if '.' ∈ e.1.toList then []
        else ((extracting e.1).map Prod.fst).foldl addRef []
      kind         :=
        if e.2.sawDownstream then .downstream
        else if e.2.ownerNodeIds.any fun id => (extracting e.1).any (·.2.nodeId = id) then .sibling
        else .downstream
      hasStrictRef := e.2.sawStrict })

end Ui
