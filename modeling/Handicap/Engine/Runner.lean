import Handicap.Engine.Curve
import Handicap.Engine.ReqGen

open Store (ThinkTime)

-- The interpreter of scenarios that runs the load.
namespace Engine

-- What comes from outside: answers, generated values, draws of think times, and the time that goes
-- by between two looks at the clock. Every use of it has a place or an address of its own.
structure Outside where
  exchange  : List ℕ → HttpRequest → Exchange
  generated : List ℕ → GenSpec → String
  draw      : List ℕ → ℕ
  delay     : List ℕ → ℚ≥0

-- What an iteration does not change.
structure Iteration where
  lib         : Libraries
  outside     : Outside
  client      : VuClient
  env         : Table String String
  vuId        : ℕ
  iterId      : ℕ
  deadline    : ℚ
  cancelledAt : Option ℚ

-- A line of control, which is that of the iteration or that of a branch of a parallel step. Its
-- turn counts the requests and the parallel steps that it has been through, and its tick counts
-- more.
structure Strand where
  path  : List ℕ
  turn  : ℕ
  tick  : ℕ
  clock : ℚ
  vars  : Table String String
  req   : Option ReqGen

inductive Event
  | http (step : HttpStep) (loopIndex : Option ℕ) (refreshed : List (String × String))
      (vars : Table String String) (result : Except EngineError (HttpRequest × ExecOutcome))
  | paced (ms : ℕ) (outcome : PaceOutcome)
  | branch (id label : String)
  | forked (branches : List (String × List Event))
  | merged (branch : String) (entries : List (String × String))
  | group (id : String) (elapsedUs : ℕ) (branches : List (String × ℕ))

structure Run where
  flow   : Except EngineError StepFlow
  strand : Strand
  log    : List Event

-- What comes after, unless the run has come to an end.
def Run.next (r : Run) (k : Strand → Run) : Run :=
  match r.flow with
  | .ok .continue => { k r.strand with log := r.log ++ (k r.strand).log }
  | _             => r

namespace Strand

variable (s : Strand)

-- Where the strand is in the scenario, whatever the clock says.
def place : List ℕ :=
  s.turn :: s.path

def address : List ℕ :=
  s.tick :: s.path

def step : Strand :=
  { s with tick := s.tick + 1 }

def turned : Strand :=
  { s.step with turn := s.turn + 1 }

def insert (entries : List (String × String)) : Strand :=
  { s with vars := entries.foldl (fun vars e => vars.insert e.1 e.2) s.vars }

def markWritten (keys : List String) : Strand :=
  { s with req := s.req.map (·.markWritten keys) }

-- The strand of a branch, which begins with what there is at the fork.
def fork (b : ℕ) : Strand :=
  { s with path := b :: s.place, turn := 0, tick := 0 }

-- What has been written is not generated again.
def merge (entries : List (String × String)) : Strand :=
  (s.insert entries).markWritten (entries.map Prod.fst)

end Strand

-- A think time that is upside down is its minimum.
def sampleThinkTime (tt : ThinkTime) (draw : ℕ) : ℕ :=
  let max := max tt.maxMs.val tt.minMs.val
  tt.minMs.val + draw % (max - tt.minMs.val + 1)

namespace Iteration

variable (it : Iteration)

def look (s : Strand) : Strand :=
  { s.step with clock := s.clock + it.outside.delay s.address }

def isCancelled (s : Strand) : Bool :=
  it.cancelledAt.any (· ≤ s.clock)

-- The deadline and the token are looked at first.
def guarded (s : Strand) (k : Strand → Run) : Run :=
  let s := it.look s
  if it.deadline ≤ s.clock then ⟨.ok .deadlineReached, s, []⟩
  else if it.isCancelled s then ⟨.ok .aborted, s, []⟩
  else k s

-- The token is cancelled in time where that is no later than the end of the sleep.
def pace (seconds : ℚ) (s : Strand) : PaceOutcome × Strand :=
  let s := it.look s
  if it.deadline ≤ s.clock then (.deadlineReached, s)
  else
    let remaining := it.deadline - s.clock
    let capped := min seconds remaining
    if capped ≤ 0 then (.slept, s)
    else
      match it.cancelledAt.filter (· ≤ s.clock + capped) with
      | some time => (.cancelled, { s with clock := max s.clock time })
      | none      =>
        (if remaining < seconds then .deadlineReached else .slept,
          { s with clock := s.clock + capped })

def context (loopIndex : Option ℕ) (s : Strand) : TemplateContext :=
  ⟨s.vars, it.env, it.vuId, it.iterId, loopIndex⟩

-- The step with its request, where it has one, and the time it takes.
def executeStep (step : HttpStep) (loopIndex : Option ℕ) (s : Strand) :
    Except EngineError (HttpRequest × ExecOutcome × ℚ) := do
  let request ← buildRequest it.lib (it.context loopIndex s) step
  let exchange := it.outside.exchange s.place request
  return (request, respond it.lib step it.client.measurePhases exchange, exchange.duration)

def think (thinkTime : Option ThinkTime) (s : Strand) : Run :=
  match thinkTime with
  | none    => ⟨.ok .continue, s, []⟩
  | some tt =>
    let ms := sampleThinkTime tt (it.outside.draw s.address)
    let (outcome, s) := it.pace (ms / 1000) s.step
    let flow : StepFlow :=
      match outcome with
      | .slept           => .continue
      | .cancelled       => .aborted
      | .deadlineReached => .deadlineReached
    ⟨.ok flow, s, [.paced ms outcome]⟩

def executeHttp (step : HttpStep) (loopIndex : Option ℕ) (defaultThink : Option ThinkTime)
    (s : Strand) : Run :=
  let generate i := it.outside.generated (i :: s.place)
  let refreshed := (s.req.map fun rg => rg.refreshed generate step.id).getD []
  let s := s.insert refreshed
  match it.executeStep step loopIndex s with
  | .error e                       =>
    ⟨.error e, s.turned, [.http step loopIndex refreshed s.vars (.error e)]⟩
  | .ok (request, outcome, duration) =>
    let after := { (s.turned.merge outcome.extracted.toList) with clock := s.clock + duration }
    let r : Run :=
      ⟨.ok .continue, after, [.http step loopIndex refreshed s.vars (.ok (request, outcome))]⟩
    r.next (it.think (step.thinkTime.or defaultThink))

-- The rounds of a loop, from the given one on.
def rounds (body : ℕ → Strand → Run) : ℕ → ℕ → Strand → Run
  | 0, _, s     => ⟨.ok .continue, s, []⟩
  | n + 1, i, s => it.guarded s fun s => (body i s).next (rounds body n (i + 1))

end Iteration

-- What has become of a branch: its name, the names that it extracts, and its run.
structure BranchRun where
  name    : String
  outputs : List String
  run     : Run

namespace BranchRun

def entries (b : BranchRun) : List (String × String) :=
  b.outputs.filterMap fun k => (b.run.strand.vars.lookup k).map fun v => (s!"{b.name}.{k}", v)

-- The branches are merged in their order, up to the first one with an error. A branch that has been
-- aborted counts more than one that has reached the deadline.
def mergeAll : List BranchRun → StepFlow → Strand → Run
  | [], flow, s      => ⟨.ok flow, s, []⟩
  | b :: rest, flow, s =>
    match b.run.flow with
    | .error e => ⟨.error e, s, []⟩
    | .ok f    =>
      let flow :=
        if f = .aborted ∨ flow = .aborted then .aborted
        else if f = .deadlineReached ∨ flow = .deadlineReached then .deadlineReached
        else .continue
      let r := mergeAll rest flow (s.merge b.entries)
      { r with log := .merged b.name b.entries :: r.log }

-- The group counts only where none of its branches has been cut.
def recordGroup (id : String) (branches : List BranchRun) (start finish : ℚ) :
    Except EngineError StepFlow → List Event
  | .ok .continue =>
    [.group id (micros (finish - start))
      (branches.map fun b => (b.name, micros (b.run.strand.clock - start)))]
  | _             => []

-- All branches have ended.
def join (id : String) (branches : List BranchRun) (s : Strand) : Run :=
  let clock := (branches.map fun b => b.run.strand.clock).foldl max s.clock
  let r := mergeAll branches .continue { s.turned with clock := clock }
  let forked : Event := .forked (branches.map fun b => (b.name, b.run.log))
  { r with log := forked :: r.log ++ recordGroup id branches s.clock clock r.flow }

end BranchRun

namespace Iteration

variable (it : Iteration)

mutual

def executeOne : Step → Option ℕ → Option ThinkTime → Strand → Run
  | .http step, loopIndex, defaultThink, s         => it.executeHttp step loopIndex defaultThink s
  | .loop _ _ repeats body, _, defaultThink, s     =>
    it.rounds (fun i s => executeSteps body (some i) defaultThink s) repeats 0 s
  | .ifStep id _ cond thenSteps elifs elseSteps, loopIndex, defaultThink, s =>
    let taken := selectBranch it.lib (it.context loopIndex s) cond elifs elseSteps
    let r : Run := ⟨.ok .continue, s, [.branch id taken.label]⟩
    r.next fun s =>
      match taken with
      | .thenBranch => executeSteps thenSteps loopIndex defaultThink s
      | .elif j     => executeElif elifs j loopIndex defaultThink s
      | _           => executeSteps elseSteps loopIndex defaultThink s
  | .parallel id _ branches, loopIndex, _, s       =>
    BranchRun.join id (executeBranches branches 0 loopIndex s) s

-- The deadline and the token are looked at before every step.
def executeSteps : List Step → Option ℕ → Option ThinkTime → Strand → Run
  | [], _, _, s                               => ⟨.ok .continue, s, []⟩
  | step :: steps, loopIndex, defaultThink, s =>
    it.guarded s fun s =>
      (executeOne step loopIndex defaultThink s).next fun s =>
        executeSteps steps loopIndex defaultThink s

def executeElif : List (Condition × List Step) → ℕ → Option ℕ → Option ThinkTime → Strand → Run
  | [], _, _, _, s                                       => ⟨.ok .continue, s, []⟩
  | (_, steps) :: _, 0, loopIndex, defaultThink, s       =>
    executeSteps steps loopIndex defaultThink s
  | _ :: elifs, j + 1, loopIndex, defaultThink, s        =>
    executeElif elifs j loopIndex defaultThink s

-- The default think time does not hold in branches.
def executeBranches : List (String × List Step) → ℕ → Option ℕ → Strand → List BranchRun
  | [], _, _, _                                  => []
  | (name, steps) :: branches, b, loopIndex, s   =>
    ⟨name, collectOutputVarNames steps, executeSteps steps loopIndex none (s.fork b)⟩ ::
      executeBranches branches (b + 1) loopIndex s

end

end Iteration

-- The variables that an iteration begins with, before the rows of the datasets are bound.
def seedIterVars (generate : ℕ → GenSpec → String) (varDecls : List (String × VarDecl)) :
    Table String String :=
  varDecls.zipIdx.foldl (fun vars d =>
    let value :=
      match d.1.2 with
      | .static value => value
      | .gen spec _   => generate d.2 spec
    vars.insert d.1.1 value) ∅

-- The strand that an iteration begins with, where the rows of the datasets are bound in their
-- order.
def Iteration.start (it : Iteration) (scenario : Scenario) (rows : List (Table String String))
    (clock : ℚ) : Strand :=
  let vars := seedIterVars (fun i => it.outside.generated [i]) scenario.varDecls
  let plan := RequestGenPlan.build it.lib.fromStr scenario
  let s : Strand := ⟨[], 0, 0, clock, vars, plan.map ReqGen.new⟩
  rows.foldl (fun s row => s.merge row.toList) s

def Iteration.runIteration (it : Iteration) (scenario : Scenario) (rows : List (Table String String))
    (clock : ℚ) : Run :=
  it.executeSteps scenario.steps none scenario.defaultThinkTime (it.start scenario rows clock)

end Engine
