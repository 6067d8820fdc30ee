import Handicap.Engine.Theorems.Render
import Handicap.Engine.Theorems.Runner
import Handicap.Engine.Theorems.Trace

open Store (ThinkTime)

-- The trace of a scenario shows what an iteration of the load does.
namespace Engine

-- Both interpreters see the same outside: at every place of the scenario, which the trace has
-- behind the base of its pass, a request has the same answer, and the same values are generated.
structure SameWorld (it : Iteration) (t : Tracing) (base : List ℕ) : Prop where
  lib       : it.lib = t.lib
  env       : it.env = t.env
  vuId      : it.vuId = 0
  exchange  : ∀ place request, it.outside.exchange place request = t.exchange (place ++ base) request
  generated : ∀ place spec, it.outside.generated place spec = t.generated (place ++ base) spec

mutual

-- The requests and the decisions, those of branches in the order of the branches.
def Event.shown : Event → List Event
  | .http step loopIndex refreshed vars result => [.http step loopIndex refreshed vars result]
  | .branch id label                           => [.branch id label]
  | .forked branches                           => branchesShown branches
  | .paced _ _                                 => []
  | .merged _ _                                => []
  | .group _ _ _                               => []

def shown : List Event → List Event
  | []       => []
  | e :: log => e.shown ++ shown log

def branchesShown : List (String × List Event) → List Event
  | []                   => []
  | (_, log) :: branches => shown log ++ branchesShown branches

end

-- A row of the trace that shows an event: the same request is sent, with the same result.
def Shows (t : Tracing) (iterId : ℕ) : Event → StepTrace → Prop
  | .http step loopIndex _ vars (.ok (request, outcome)), row =>
    let prepared := prepare t.lib ⟨vars, t.env, 0, iterId, loopIndex⟩ step
    prepared.sent = request ∧ row.request = some prepared.request ∧ row.kind = .http ∧
      row.stepId = step.id ∧ row.loopIndex = loopIndex ∧ row.unboundVars = [] ∧
      row.extracted = outcome.extracted ∧ row.error = outcome.error
  | .branch id label, row => row.kind = .if ∧ row.stepId = id ∧ row.branch = some label
  | _, _ => False

-- The variables are the same, which of them are generated again, and the place.
structure Matches (it : Iteration) (base : List ℕ) (s : Strand) (ts : TraceState) : Prop where
  vars   : ts.vars = s.vars
  req    : ts.req = s.req
  iterId : ts.iterId = it.iterId
  path   : ts.path = s.path ++ base
  turn   : ts.turn = s.turn

-- What a part of the scenario does in one interpreter, and in the other.
structure Follow (it : Iteration) (t : Tracing) (base : List ℕ) (ts : TraceState) (r : Run)
    (ts' : TraceState) : Prop where
  same : Matches it base r.strand ts'
  rows : ∃ rows, ts'.steps = ts.steps ++ rows ∧ List.Forall₂ (Shows t it.iterId) (shown r.log) rows

section

variable {it : Iteration} {t : Tracing} {s : Strand} {ts : TraceState} {r : Run}
  {lib : Libraries} {ctx : TemplateContext} {step : HttpStep} {request : HttpRequest}
  {log log' : List Event} {entries : List (String × String)} {base : List ℕ}

theorem shown_append : shown (log ++ log') = shown log ++ shown log' := by
  induction log
  case nil => rfl
  case cons e log ih => simp only [List.cons_append, shown, ih, List.append_assoc]

theorem Matches.insert (h : Matches it base s ts) :
    Matches it base (s.insert entries) (ts.insert entries) where
  vars   := by simp only [TraceState.insert, Strand.insert, h.vars]
  req    := h.req
  iterId := h.iterId
  path   := h.path
  turn   := h.turn

theorem Matches.place (h : Matches it base s ts) : ts.place = s.place ++ base := by
  rw [TraceState.place, Strand.place, h.path, h.turn]
  rfl

theorem Matches.merge (h : Matches it base s ts) :
    Matches it base (s.merge entries) (ts.merge entries) where
  vars   := h.insert.vars
  req    := by
    simp only [TraceState.merge, Strand.merge, Strand.markWritten, Strand.insert, h.req]
  iterId := h.iterId
  path   := h.path
  turn   := h.turn

theorem Matches.context (w : SameWorld it t base) (h : Matches it base s ts) (loopIndex : Option ℕ) :
    t.context loopIndex ts = it.context loopIndex s := by
  simp only [Tracing.context, Iteration.context, h.vars, h.iterId, w.env, w.vuId]

section Requests

-- A header that can be sent is shown without an error.
theorem traceHeaders_of_ok (shown : Table String String) (unbound : List String)
    {fields : List (String × String)} {headers sent : Table String String}
    (h : renderHeaders lib ctx fields headers = .ok sent) :
    ∃ shown', fields.foldl (traceHeader lib ctx) ⟨shown, headers, none, unbound⟩ =
      ⟨shown', sent, none, unbound⟩ := by
  induction fields generalizing shown headers
  case nil =>
    cases h
    exact ⟨shown, rfl⟩
  case cons field fields ih =>
    obtain ⟨k, v⟩ := field
    obtain ⟨text, ht, h⟩ := Guard.bind_eq_ok.mp h
    cases hn : lib.headerName k
    case error e =>
      rw [hn] at h
      cases h
    case ok name =>
      cases hv : lib.headerValue text
      case error e =>
        simp only [hn, hv] at h
        cases h
      case ok value =>
        simp only [hn, hv] at h
        obtain ⟨shown', hs⟩ := ih (shown.insert k text) h
        refine ⟨shown', ?_⟩
        rw [List.foldl_cons, ← hs]
        simp only [traceHeader, renderCollecting_of_ok ht, hn, hv]

theorem traceFields_of_ok {fields fields' : List (String × String)} {unbound : List String}
    (h : renderFields ctx fields = .ok fields') :
    traceFields ctx fields unbound = (fields', unbound) := by
  induction fields generalizing fields'
  case nil =>
    cases h
    rfl
  case cons field fields ih =>
    obtain ⟨k, v⟩ := field
    obtain ⟨text, ht, h⟩ := Guard.bind_eq_ok.mp h
    obtain ⟨rest, hr, h⟩ := Guard.bind_eq_ok.mp h
    cases h
    simp only [traceFields, renderCollecting_of_ok ht, ih hr]

theorem traceBody_of_ok (unbound : List String) {body : Body} {rendered : RenderedBody}
    (h : renderBody lib ctx body = .ok rendered) :
    ∃ text, traceBody lib ctx unbound body = (rendered, text, unbound) := by
  cases body
  case json value =>
    obtain ⟨v, hv, h⟩ := Guard.bind_eq_ok.mp h
    cases h
    exact ⟨lib.print v, by simp only [traceBody, (Agree.value value).ok hv]⟩
  case form fields =>
    obtain ⟨l, hl, h⟩ := Guard.bind_eq_ok.mp h
    cases h
    exact ⟨_, by simp only [traceBody, traceFields_of_ok hl]; rfl⟩
  case raw text =>
    obtain ⟨v, hv, h⟩ := Guard.bind_eq_ok.mp h
    cases h
    exact ⟨v, by simp only [traceBody, renderCollecting_of_ok hv]⟩

-- A request that can be built is sent by the trace as well.
theorem prepare_of_ok (h : buildRequest lib ctx step = .ok request) :
    (prepare lib ctx step).sent = request ∧ (prepare lib ctx step).buildError = none ∧
      (prepare lib ctx step).unboundVars = [] := by
  obtain ⟨url, hu, h⟩ := Guard.bind_eq_ok.mp h
  obtain ⟨headers, hh, h⟩ := Guard.bind_eq_ok.mp h
  obtain ⟨shown', hs⟩ := traceHeaders_of_ok ∅ [] hh
  cases hb : step.request.body
  case none =>
    rw [hb] at h
    have h := Except.ok.inj h
    simp only [prepare, renderCollecting_of_ok hu, hs, hb]
    exact ⟨h, trivial, rfl⟩
  case some body =>
    rw [hb] at h
    obtain ⟨rendered, hr, h⟩ := Guard.bind_eq_ok.mp h
    have h := Except.ok.inj h
    obtain ⟨text, ht⟩ := traceBody_of_ok [] hr
    simp only [prepare, renderCollecting_of_ok hu, hs, hb, Option.map_some, ht]
    exact ⟨h, trivial, rfl⟩

-- What becomes of a request that could be built is shown as it is.
theorem traceResponse_of_ok (measurePhases timedOut : Bool) (exchange : Exchange)
    (h : buildRequest lib ctx step = .ok request) :
    let trace := traceResponse lib step (prepare lib ctx step) timedOut exchange
    let outcome := respond lib step measurePhases exchange
    trace.request = (prepare lib ctx step).request ∧ trace.unboundVars = [] ∧
      trace.extracted = outcome.extracted ∧ trace.error = outcome.error := by
  obtain ⟨_, hb, hu⟩ := prepare_of_ok h
  unfold traceResponse respond
  rw [hb, hu]
  cases exchange.outcome
  case error e => exact ⟨rfl, rfl, rfl, rfl⟩
  case ok resp =>
    cases hr : resp.body
    case error e => simp [hr]
    case ok body =>
      cases ha : checkAssertions resp.status step.assertions
      case some error => simp [hr, ha]
      case none =>
        cases he : evaluate lib step.extract ⟨resp.status, resp.headers, resp.setCookies, body⟩
        case error e => simp [hr, ha, he]
        case ok extracted => simp [hr, ha, he]

end Requests

section Parts

variable {k : Strand → Run} {k' : TraceState → TraceState} {loopIndex : Option ℕ}
  {thinkTime : Option ThinkTime} {ts' ts'' : TraceState} {r' : Run}

theorem Follow.nil (h : Matches it base s ts) (hl : shown r.log = []) (hs : r.strand = s) :
    Follow it t base ts r ts :=
  ⟨hs ▸ h, [], by simp, hl ▸ .nil⟩

-- One part after another.
theorem Follow.next (hf : r.flow = .ok .continue) (h : Follow it t base ts r ts')
    (h' : Follow it t base ts' (k r.strand) ts'') : Follow it t base ts (r.next k) ts'' := by
  obtain ⟨rows, hs, hr⟩ := h.rows
  obtain ⟨rows', hs', hr'⟩ := h'.rows
  unfold Run.next
  rw [hf]
  refine ⟨h'.same, rows ++ rows', ?_, ?_⟩
  · rw [hs', hs, List.append_assoc]
  · exact shown_append ▸ List.rel_append hr hr'

-- A think time shows in neither of them.
theorem follow_think (h : Matches it base s ts) :
    Follow it t base ts (it.think thinkTime s) (t.think thinkTime ts) := by
  have hs : (t.think thinkTime ts).steps = ts.steps ∧ (t.think thinkTime ts).vars = ts.vars ∧
      (t.think thinkTime ts).req = ts.req ∧ (t.think thinkTime ts).iterId = ts.iterId ∧
      (t.think thinkTime ts).path = ts.path ∧ (t.think thinkTime ts).turn = ts.turn := by
    unfold Tracing.think
    split_ifs <;> exact ⟨rfl, rfl, rfl, rfl, rfl, rfl⟩
  obtain ⟨hsteps, hvars, hreq, hid, hpath, hturn⟩ := hs
  have hr : shown (it.think thinkTime s).log = [] := by
    cases thinkTime
    case none    => rfl
    case some tt => rfl
  obtain ⟨tick, clock, hm⟩ := think_strand it thinkTime s
  refine ⟨⟨?_, ?_, hid.trans h.iterId, ?_, ?_⟩, [], by simp [hsteps], hr ▸ .nil⟩
  · rw [hvars, hm, h.vars]
  · rw [hreq, hm, h.req]
  · rw [hpath, hm, h.path]
  · rw [hturn, hm, h.turn]

-- A request that is sent in one of them is sent in the other, with the same answer.
theorem follow_http (w : SameWorld it t base) (h : Matches it base s ts)
    {defaultThink : Option ThinkTime}
    (hf : (it.executeHttp step loopIndex defaultThink s).flow = .ok .continue) :
    Follow it t base ts (it.executeHttp step loopIndex defaultThink s)
      (t.traceHttp step loopIndex defaultThink ts) := by
  have hg : (fun i => it.outside.generated (i :: s.place)) = fun i => t.generated (i :: ts.place) := by
    funext i spec
    rw [h.place]
    exact w.generated ..
  unfold Iteration.executeHttp at hf ⊢
  unfold Tracing.traceHttp
  simp only [hg, h.req] at hf ⊢
  generalize (s.req.map fun rg => rg.refreshed (fun i => t.generated (i :: ts.place)) step.id).getD []
    = refreshed at hf ⊢
  have hi : Matches it base (s.insert refreshed) (ts.insert refreshed) := h.insert
  have hc := hi.context w loopIndex
  have hs : (ts.insert refreshed).steps = ts.steps := rfl
  generalize s.insert refreshed = s' at *
  generalize ts.insert refreshed = ts' at *
  cases he : it.executeStep step loopIndex s'
  case error e =>
    rw [he] at hf
    cases hf
  case ok result =>
    obtain ⟨request, outcome, duration⟩ := result
    obtain ⟨request', hb, ho⟩ := Guard.bind_eq_ok.mp he
    cases ho
    rw [w.lib, ← hc] at hb
    obtain ⟨hsent, hbuild, hunbound⟩ := prepare_of_ok hb
    obtain ⟨hq, hu, hx, herr⟩ := traceResponse_of_ok it.client.measurePhases (t.timedOut ts'.tick)
      (t.exchange ts'.place request) hb
    have he : it.outside.exchange s'.place request = t.exchange ts'.place request := by
      rw [hi.place]
      exact w.exchange ..
    simp only [hsent, hx, hu, hq, herr, w.lib, he]
    have hm : Matches it base (s'.merge (respond t.lib step it.client.measurePhases
        (t.exchange ts'.place request)).extracted.toList) _ := hi.merge
    have hturn := congrArg Nat.succ hm.turn
    refine Follow.next rfl ?_ (follow_think ⟨hm.vars, hm.req, hm.iterId, hm.path, hturn⟩)
    refine ⟨⟨hm.vars, hm.req, hm.iterId, hm.path, hturn⟩, [_], congrArg (· ++ [_]) hs, .cons ?_ .nil⟩
    have hp : t.context loopIndex ts' = ⟨s'.vars, t.env, 0, it.iterId, loopIndex⟩ := by
      simp only [Tracing.context, hi.vars, hi.iterId]
    rw [hp] at hsent ⊢
    exact ⟨hsent, rfl, rfl, rfl, rfl, rfl, rfl, rfl⟩

-- What has not been cut had not been cut before.
theorem live_of_stops (hs : Tracing.Stops k') (h : (k' ts).truncated = false) :
    ts.truncated = false := by
  cases ht : ts.truncated
  case false => rfl
  case true  => exact absurd (hs ts ht ▸ h) (by simp [ht])

theorem guarded_live (h : (t.guarded ts k').truncated = false) :
    ts.truncated = false ∧ t.guarded ts k' = k' ts.look := by
  have ht : ts.truncated = false := live_of_stops Tracing.guarded_stops h
  refine ⟨ht, ?_⟩
  unfold Tracing.guarded at h ⊢
  rw [if_neg (by simp [ht])] at h ⊢
  split_ifs at h ⊢
  case pos => cases h
  case neg => rfl

theorem traceRounds_stops {id : String} {body : ℕ → TraceState → TraceState} (n i : ℕ) :
    Tracing.Stops (t.traceRounds id body n i) := by
  intro s hs
  cases n
  case zero   => rfl
  case succ n => exact Tracing.guarded_stops s hs

-- The rounds of a loop.
theorem follow_rounds {id : String} {body : ℕ → Strand → Run} {body' : ℕ → TraceState → TraceState}
    (hb : ∀ i s ts, Matches it base s ts → (body i s).flow = .ok .continue →
      (body' i ts).truncated = false → Follow it t base ts (body i s) (body' i ts))
    (n i : ℕ) {s : Strand} {ts : TraceState} (h : Matches it base s ts)
    (hf : (it.rounds body n i s).flow = .ok .continue)
    (ht : (t.traceRounds id body' n i ts).truncated = false) :
    Follow it t base ts (it.rounds body n i s) (t.traceRounds id body' n i ts) := by
  induction n generalizing i s ts
  case zero => exact .nil h rfl rfl
  case succ n ih =>
    rw [Iteration.rounds] at hf ⊢
    rw [Tracing.traceRounds] at ht ⊢
    have hg := guarded_continue hf
    obtain ⟨_, hl⟩ := guarded_live ht
    rw [hg] at hf ⊢
    rw [hl] at ht ⊢
    obtain ⟨h₁, h₂, _⟩ := Run.next_continue hf
    have hr := hb i (it.look s) (ts.look.visit (.iteration id i))
      ⟨h.vars, h.req, h.iterId, h.path, h.turn⟩ h₁
      (live_of_stops (traceRounds_stops n (i + 1)) ht)
    have hn := Follow.next h₁ hr (ih (i + 1) hr.same h₂ ht)
    exact ⟨hn.same, hn.rows⟩

end Parts

-- What the branches of a parallel step do, and what of it is merged.
structure FollowBranches (it : Iteration) (t : Tracing) (base : List ℕ) (ts : TraceState)
    (runs : List BranchRun) (merged : Strand) (ts' : TraceState) : Prop where
  same : Matches it base merged ts'
  rows : ∃ rows, ts'.steps = ts.steps ++ rows ∧
    List.Forall₂ (Shows t it.iterId) (branchesShown (runs.map fun b => (b.name, b.run.log))) rows

theorem shown_mergeAll {branches : List BranchRun} {flow : StepFlow} :
    shown (BranchRun.mergeAll branches flow s).log = [] := by
  induction branches generalizing flow s
  case nil => rfl
  case cons b branches ih =>
    rw [BranchRun.mergeAll]
    split
    case h_1 => rfl
    case h_2 => simp only [shown, Event.shown, ih, List.nil_append]

-- Merging leaves the turn alone.
theorem mergeAll_turned (branches : List BranchRun) (flow : StepFlow) (m : Strand) :
    (BranchRun.mergeAll branches flow m.turned).strand =
      (BranchRun.mergeAll branches flow m).strand.turned := by
  induction branches generalizing flow m
  case nil => rfl
  case cons b branches ih =>
    rw [BranchRun.mergeAll, BranchRun.mergeAll]
    split
    case h_1 => rfl
    case h_2 => exact ih _ (m.merge b.entries)

-- A parallel step shows what its branches show.
theorem shown_join {id : String} {branches : List BranchRun} :
    shown (BranchRun.join id branches s).log =
      branchesShown (branches.map fun b => (b.name, b.run.log)) := by
  have hg (start finish : ℚ) (flow) :
      shown (BranchRun.recordGroup id branches start finish flow) = [] := by
    unfold BranchRun.recordGroup
    split <;> rfl
  rw [BranchRun.join]
  simp only [List.cons_append, shown, shown_append, Event.shown, shown_mergeAll, hg,
    List.append_nil]

mutual

-- By induction on the steps.
theorem follow_step (w : SameWorld it t base) (step : Step) (loopIndex defaultThink) {s : Strand}
    {ts : TraceState} (h : Matches it base s ts)
    (hf : (it.executeOne step loopIndex defaultThink s).flow = .ok .continue)
    (ht : (t.traceStep step loopIndex defaultThink ts).truncated = false) :
    Follow it t base ts (it.executeOne step loopIndex defaultThink s)
      (t.traceStep step loopIndex defaultThink ts) := by
  cases step
  case http step => exact follow_http w h hf
  case loop id name repeats body =>
    exact follow_rounds (fun i s ts h hf ht => follow_steps w body (some i) defaultThink h hf ht)
      repeats 0 h hf ht
  case ifStep id name cond thenSteps elifs elseSteps =>
    rw [Iteration.executeOne] at hf ⊢
    rw [Tracing.traceStep] at ht ⊢
    obtain ⟨_, h₂, _⟩ := Run.next_continue hf
    have hp (taken : Taken) : Follow it t base ts ⟨.ok .continue, s, [.branch id taken.label]⟩
        (ts.push (t.decision id loopIndex taken cond elifs (t.context loopIndex ts))) :=
      ⟨⟨h.vars, h.req, h.iterId, h.path, h.turn⟩, [_], rfl, .cons ⟨rfl, rfl, rfl⟩ .nil⟩
    rw [w.lib, ← h.context w] at h₂ ⊢
    generalize selectBranch t.lib (t.context loopIndex ts) cond elifs elseSteps = taken at *
    refine (hp taken).next rfl ?_
    cases taken
    case thenBranch => exact follow_steps w thenSteps loopIndex defaultThink (hp _).same h₂ ht
    case elif j     => exact follow_elif w elifs j loopIndex defaultThink (hp _).same h₂ ht
    case elseBranch => exact follow_steps w elseSteps loopIndex defaultThink (hp _).same h₂ ht
    case none       => exact follow_steps w elseSteps loopIndex defaultThink (hp _).same h₂ ht
  case parallel id name branches =>
    rw [Iteration.executeOne] at hf ⊢
    rw [Tracing.traceStep] at ht ⊢
    obtain ⟨hb, _⟩ := join_continue hf
    let runs := it.executeBranches branches 0 loopIndex s
    let clock := (runs.map fun b => b.run.strand.clock).foldl max s.clock
    let m : Strand := { s with clock := clock }
    have hm : Matches it base m ts := ⟨h.vars, h.req, h.iterId, h.path, h.turn⟩
    have hj := follow_branches w branches 0 loopIndex (m := m) h.vars h.req rfl hm hb ht .continue
    have hs : (BranchRun.join id runs s).strand =
        (BranchRun.mergeAll runs .continue m).strand.turned := mergeAll_turned runs .continue m
    refine ⟨?_, ?_⟩
    case refine_1 =>
      rw [hs]
      exact ⟨hj.same.vars, hj.same.req, hj.same.iterId, hj.same.path,
        congrArg Nat.succ hj.same.turn⟩
    case refine_2 =>
      rw [shown_join]
      exact hj.rows

theorem follow_steps (w : SameWorld it t base) (steps : List Step) (loopIndex defaultThink)
    {s : Strand} {ts : TraceState} (h : Matches it base s ts)
    (hf : (it.executeSteps steps loopIndex defaultThink s).flow = .ok .continue)
    (ht : (t.traceSteps steps loopIndex defaultThink ts).truncated = false) :
    Follow it t base ts (it.executeSteps steps loopIndex defaultThink s)
      (t.traceSteps steps loopIndex defaultThink ts) := by
  cases steps
  case nil => exact .nil h rfl rfl
  case cons step steps =>
    rw [Iteration.executeSteps] at hf ⊢
    rw [Tracing.traceSteps] at ht ⊢
    have hg := guarded_continue hf
    obtain ⟨_, hl⟩ := guarded_live ht
    rw [hg] at hf ⊢
    rw [hl] at ht ⊢
    obtain ⟨h₁, h₂, _⟩ := Run.next_continue hf
    have hm : Matches it base (it.look s) (ts.look.visit (.step step.id loopIndex)) :=
      ⟨h.vars, h.req, h.iterId, h.path, h.turn⟩
    have hr := follow_step w step loopIndex defaultThink hm h₁
      (live_of_stops (Tracing.traceSteps_stops _ _ _) ht)
    have hn := Follow.next h₁ hr (follow_steps w steps loopIndex defaultThink hr.same h₂ ht)
    exact ⟨hn.same, hn.rows⟩

theorem follow_elif (w : SameWorld it t base) (elifs : List (Condition × List Step)) (j : ℕ)
    (loopIndex defaultThink) {s : Strand} {ts : TraceState} (h : Matches it base s ts)
    (hf : (it.executeElif elifs j loopIndex defaultThink s).flow = .ok .continue)
    (ht : (t.traceElif elifs j loopIndex defaultThink ts).truncated = false) :
    Follow it t base ts (it.executeElif elifs j loopIndex defaultThink s)
      (t.traceElif elifs j loopIndex defaultThink ts) := by
  cases elifs
  case nil => exact .nil h rfl rfl
  case cons elif elifs =>
    obtain ⟨cond, steps⟩ := elif
    cases j
    case zero   => exact follow_steps w steps loopIndex defaultThink h hf ht
    case succ j => exact follow_elif w elifs j loopIndex defaultThink h hf ht

-- The strand is that of the fork, the other one that into which the branches are merged.
theorem follow_branches (w : SameWorld it t base) (branches : List (String × List Step)) (b : ℕ)
    (loopIndex) {s m : Strand} {entry req} {ts : TraceState} (hv : entry = s.vars)
    (hr : req = s.req) (hp : m.place = s.place) (h : Matches it base m ts)
    (hf : ∀ br ∈ it.executeBranches branches b loopIndex s, br.run.flow = .ok .continue)
    (ht : (t.traceBranches branches b entry req loopIndex ts).truncated = false) :
    ∀ flow, FollowBranches it t base ts (it.executeBranches branches b loopIndex s)
      (BranchRun.mergeAll (it.executeBranches branches b loopIndex s) flow m).strand
      (t.traceBranches branches b entry req loopIndex ts) := by
  cases branches
  case nil => exact fun _ => ⟨h, [], by simp [Tracing.traceBranches], .nil⟩
  case cons branch branches =>
    obtain ⟨name, steps⟩ := branch
    obtain ⟨h₁, h₂⟩ := List.forall_mem_cons.mp hf
    have hl := live_of_stops (Tracing.traceBranches_stops _ _ _ _ _) ht
    rw [Iteration.executeBranches]
    rw [Tracing.traceBranches, if_neg (by simp [hl])] at ht ⊢
    have hlb : (ts.join name (collectOutputVarNames steps) (t.traceSteps steps loopIndex none
        (ts.within entry req (b :: ts.place) 0))).truncated = false :=
      live_of_stops (Tracing.traceBranches_stops _ _ _ _ _) ht
    have hpath : b :: ts.place = (s.fork b).path ++ base := by
      rw [h.place, hp]
      rfl
    have hf : Matches it base (s.fork b) (ts.within entry req (b :: ts.place) 0) :=
      ⟨hv, hr, h.iterId, hpath, rfl⟩
    have hs := follow_steps w steps loopIndex none hf h₁ hlb
    generalize it.executeSteps steps loopIndex none (s.fork b) = run at *
    generalize t.traceSteps steps loopIndex none (ts.within entry req (b :: ts.place) 0) = branch
      at *
    have hj : Matches it base (m.merge (BranchRun.entries ⟨name, collectOutputVarNames steps, run⟩))
        (ts.join name (collectOutputVarNames steps) branch) := by
      have hw : Matches it base m (branch.within ts.vars ts.req ts.path ts.turn) :=
        ⟨h.vars, h.req, hs.same.iterId, h.path, h.turn⟩
      unfold TraceState.join BranchRun.entries
      rw [hs.same.vars]
      exact hw.merge
    obtain ⟨rows, hrows, hshown⟩ := hs.rows
    intro flow
    rw [BranchRun.mergeAll, h₁]
    have hn := follow_branches w branches (b + 1) loopIndex (m := m.merge _) hv hr hp hj h₂ ht
    obtain ⟨rows', hrows', hshown'⟩ := (hn flow).rows
    refine ⟨(hn _).same, rows ++ rows', ?_, List.rel_append hshown hshown'⟩
    rw [hrows', ← List.append_assoc, ← show branch.steps = ts.steps ++ rows from hrows]
    rfl

end

-- Both begin with the same variables.
theorem matches_start {ts : TraceState} (w : SameWorld it t [ts.tick]) (scenario : Scenario)
    (seed : Table String String) (clock : ℚ) :
    Matches it [ts.tick] (it.start scenario [seed] clock)
      (t.enter scenario seed it.iterId ts) := by
  have hg : (fun i => it.outside.generated [i]) = fun i => t.generated (i :: [ts.tick]) := by
    funext i spec
    exact w.generated ..
  unfold Iteration.start Tracing.enter
  rw [hg, w.lib]
  apply Matches.merge
  exact ⟨rfl, rfl, rfl, rfl, rfl⟩

theorem Follow.shows {ts' : TraceState} (h : Follow it t base ts r ts') (hn : ts.steps = []) :
    List.Forall₂ (Shows t it.iterId) (shown r.log) ts'.steps := by
  obtain ⟨rows, hs, hr⟩ := h.rows
  rw [hn, List.nil_append] at hs
  exact hs ▸ hr

-- An iteration that comes to its end sends the requests and takes the branches that the trace of
-- the scenario with its row shows, in their order and with the same results, and leaves the same
-- variables.
theorem trace_shows_iteration (s : TraceState) (w : SameWorld it t [s.tick]) (scenario : Scenario)
    (seed : Table String String) (clock : ℚ)
    (hf : (it.runIteration scenario [seed] clock).flow = .ok .continue)
    (ht : (t.traceOnce scenario seed it.iterId s).1.truncated = false) :
    let run := it.runIteration scenario [seed] clock
    let trace := (t.traceOnce scenario seed it.iterId s).1
    trace.finalVars = run.strand.vars ∧
      List.Forall₂ (Shows t it.iterId) (shown run.log) trace.steps := by
  have h := follow_steps w scenario.steps none scenario.defaultThinkTime
    (matches_start w scenario seed clock) hf ht
  exact ⟨h.same.vars, h.shows rfl⟩

-- So does the trace of the scenario with a row of the dataset, which is the first iteration.
theorem traceScenario_follows_iteration (w : SameWorld it t [Tracing.start.tick]) (hi : it.iterId = 0)
    (hc : t.clientError = none) (scenario : Scenario) (seed : Table String String) (clock : ℚ)
    (hf : (it.runIteration scenario [seed] clock).flow = .ok .continue)
    (ht : (t.traceScenarioWithSeed scenario seed).truncated = false) :
    let run := it.runIteration scenario [seed] clock
    let trace := t.traceScenarioWithSeed scenario seed
    trace.error = none ∧ trace.finalVars = run.strand.vars ∧
      List.Forall₂ (Shows t 0) (shown run.log) trace.steps := by
  have he : t.traceScenarioWithSeed scenario seed =
      (t.traceOnce scenario seed it.iterId Tracing.start).1 := by
    rw [Tracing.traceScenarioWithSeed, hc, hi]
  rw [he] at ht ⊢
  have h := follow_steps w scenario.steps none scenario.defaultThinkTime
    (matches_start w scenario seed clock) hf ht
  exact ⟨rfl, h.same.vars, hi ▸ h.shows rfl⟩

end

-- A request to a path, of whose answer the status is kept.
def requestTo (id url : String) : Step :=
  .http ⟨id, "", ⟨.get, url, [], none, ⟨[], []⟩⟩, [], [.status "code"], none, none⟩

-- Two branches with a variable that is generated for every request, the second one in the first
-- round of a loop only, and a request with what the first one has extracted.
def forkOfTwo : Scenario :=
  let first := Condition.compare "${loop_index}" .eq (some "0")
  let second := Step.ifStep "i" "" first [requestTo "b" "/{{n}}"] [] []
  let branches := [("x", [requestTo "a" "/{{n}}"]), ("y", [second])]
  let body := [Step.parallel "p" "" branches, requestTo "c" "/{{n}}/{{x.code}}"]
  { Tracing.oneRequest with
    varDecls := [("n", .gen .uuid .request)]
    steps    := [.loop "l" "" 2 body] }

-- Every place has an answer and a value of its own.
def allAllowed : Tracing :=
  { (Tracing.oneAllowed none).unlimited with
    exchange  := fun place _ => ⟨0, 0, 0, .ok ⟨200 + place.sum, [], [], 0, .ok []⟩⟩
    generated := fun place _ => toString place.sum }

-- An iteration that sees at its places what the first pass of the trace sees at them.
def oneIteration : Iteration where
  lib         := plainLibraries
  outside     := ⟨fun place => allAllowed.exchange (place ++ [1]),
    fun place => allAllowed.generated (place ++ [1]), fun _ => 0, fun _ => 0⟩
  client      := ⟨1, false⟩
  env         := ∅
  vuId        := 0
  iterId      := 0
  deadline    := 1
  cancelledAt := none

theorem oneIteration_same : SameWorld oneIteration allAllowed [1] :=
  ⟨rfl, rfl, rfl, fun _ _ => rfl, fun _ _ => rfl⟩

theorem trace_shows_fork :
    let run := oneIteration.runIteration forkOfTwo [∅] 0
    let trace := (allAllowed.traceOnce forkOfTwo ∅ 0 Tracing.start).1
    trace.finalVars = run.strand.vars ∧
      List.Forall₂ (Shows allAllowed 0) (shown run.log) trace.steps :=
  trace_shows_iteration Tracing.start oneIteration_same forkOfTwo ∅ 0 (by decide +kernel)
    (by decide +kernel)

theorem traceScenario_follows_fork :
    let run := oneIteration.runIteration forkOfTwo [∅] 0
    let trace := allAllowed.traceScenarioWithSeed forkOfTwo ∅
    trace.error = none ∧ trace.finalVars = run.strand.vars ∧
      List.Forall₂ (Shows allAllowed 0) (shown run.log) trace.steps :=
  traceScenario_follows_iteration oneIteration_same rfl rfl forkOfTwo ∅ 0 (by decide +kernel)
    (by decide +kernel)

-- The values are generated again.
example : (allAllowed.traceScenarioWithSeed forkOfTwo ∅).steps.filterMap
    (fun row => row.request.map (·.url)) = ["/1", "/2", "/2/201", "/3", "/4/203"] := by
  decide +kernel

-- A header that cannot be sent, and a request after it.
def brokenHeader : Scenario :=
  let request (headers : List (String × String)) : Request := ⟨.get, "/", headers, none, ⟨[], []⟩⟩
  { Tracing.oneRequest with
    steps := [.http ⟨"a", "", request [("x", "1\n2")], [], [], none, none⟩,
              .http ⟨"b", "", request [], [], [], none, none⟩] }

def oneLine : Libraries :=
  { plainLibraries with
    headerValue := fun v => if '\n' ∈ v.toList then .error "invalid value" else .ok v }

def namesVu : Scenario :=
  { Tracing.oneRequest with steps := [requestTo "a" "/${vu_id}"] }

def Event.url : Event → Option String
  | .http _ _ _ _ (.ok (request, _)) => some request.url
  | _                                => none

-- A row shows the address that is asked for.
theorem Shows.url {t : Tracing} {iterId : ℕ} {e : Event} {row : StepTrace} {url : String}
    (h : Shows t iterId e row) (he : e.url = some url) :
    row.request.map (·.url) = some url := by
  unfold Event.url at he
  split at he
  case h_1 =>
    cases he
    obtain ⟨hs, hr, _⟩ := h
    rw [hr, ← hs]
    rfl
  case h_2 => cases he

-- The iteration ends at a request that cannot be built, and the trace goes on. The trace is that of
-- the VU with the number 0.
theorem trace_goes_on_counterexample :
    (let it := { oneIteration with lib := oneLine }
     let t := { allAllowed with lib := oneLine }
     let run := it.runIteration brokenHeader [∅] 0
     let trace := t.traceScenarioWithSeed brokenHeader ∅
     SameWorld it t [1] ∧ run.strand.clock < it.deadline ∧ it.cancelledAt = none ∧
       trace.truncated = false ∧ (∀ row ∈ trace.steps, row.unboundVars = []) ∧
       (shown run.log).length = 1 ∧ trace.steps.map (·.stepId) = ["a", "b"] ∧
       ¬List.Forall₂ (Shows t 0) (shown run.log) trace.steps) ∧
    (let it := { oneIteration with vuId := 1 }
     let run := it.runIteration namesVu [∅] 0
     let trace := allAllowed.traceScenarioWithSeed namesVu ∅
     SameWorld { it with vuId := 0 } allAllowed [1] ∧ run.flow = .ok .continue ∧
       trace.truncated = false ∧ trace.steps.map (·.unboundVars) = [[]] ∧
       ¬List.Forall₂ (Shows allAllowed 0) (shown run.log) trace.steps) := by
  refine ⟨?_, ?_⟩
  case refine_1 =>
    intro it t run trace
    have hlog : (shown run.log).length = 1 := by decide +kernel
    have hids : trace.steps.map (·.stepId) = ["a", "b"] := by decide +kernel
    refine ⟨⟨rfl, rfl, rfl, fun _ _ => rfl, fun _ _ => rfl⟩, ?_, rfl, ?_, ?_, hlog, hids,
      fun h => ?_⟩
    case refine_4 =>
      have hrows : trace.steps.length = 2 := by simpa using congrArg List.length hids
      exact absurd (hlog.symm.trans (h.length_eq.trans hrows)) (by decide)
    all_goals decide +kernel
  case refine_2 =>
    intro it run trace
    have hlog : (shown run.log).map Event.url = [some "/1"] := by decide +kernel
    have hrows : trace.steps.map (fun row => row.request.map (·.url)) = [some "/0"] := by
      decide +kernel
    refine ⟨oneIteration_same, by decide +kernel, by decide +kernel, by decide +kernel, fun h => ?_⟩
    generalize shown run.log = events at h hlog
    generalize trace.steps = rows at h hrows
    cases h
    case nil => cases hlog
    case cons event row events rows hs _ =>
      have hu := (List.cons.inj hrows).1.symm.trans (hs.url (List.cons.inj hlog).1)
      exact absurd hu (by decide)

end Engine
