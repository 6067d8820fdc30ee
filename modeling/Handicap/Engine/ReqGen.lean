import Handicap.Engine.Executor

-- The variables that are generated again for every request.
namespace Engine

-- The numbers of the variables that the steps of an id refer to are in order.
structure RequestGenPlan where
  gens    : List (String × GenSpec)
  targets : String → List ℕ

namespace RequestGenPlan

def names (plan : RequestGenPlan) : List String :=
  plan.gens.map Prod.fst

def index (plan : RequestGenPlan) (name : String) : Option ℕ :=
  plan.names.findIdx? (· = name)

def declared (varDecls : List (String × VarDecl)) : List (String × GenSpec) :=
  varDecls.filterMap fun d =>
    match d.2 with
    | .gen spec .request => some (d.1, spec)
    | _                  => none

-- There is no plan without such variables.
def build (fromStr : String → Option Json) (scenario : Scenario) : Option RequestGenPlan :=
  let gens := declared scenario.varDecls
  if gens = [] then none
  else
    let names := gens.map Prod.fst
    let dummyEnv : Table String String := names.foldl (fun env name => env.insert name "") ∅
    let refs (step : HttpStep) : List ℕ :=
      requestFlowRefs fromStr step.request dummyEnv (fun name => names.findIdx? (· = name))
        names.length
    let https := collectHttp scenario.steps
    some {
      gens    := gens
      targets := fun stepId =>
        (List.range names.length).filter fun i =>
          https.any fun step => step.id = stepId ∧ i ∈ refs step
    }

end RequestGenPlan

-- Which variables have been written, and are generated no more.
structure ReqGen where
  plan : RequestGenPlan
  dead : List Bool

namespace ReqGen

def new (plan : RequestGenPlan) : ReqGen :=
  ⟨plan, List.replicate plan.gens.length false⟩

def markWritten (rg : ReqGen) (keys : List String) : ReqGen :=
  keys.foldl (fun rg k =>
    match rg.plan.index k with
    | some i => { rg with dead := rg.dead.set i true }
    | none   => rg) rg

-- The variables that are generated again before the request of a step, with their values.
def refreshed (rg : ReqGen) (generate : ℕ → GenSpec → String) (stepId : String) :
    List (String × String) :=
  (rg.plan.targets stepId).filterMap fun i =>
    if rg.dead[i]? = some false then rg.plan.gens[i]?.map fun g => (g.1, generate i g.2) else none

end ReqGen

end Engine
