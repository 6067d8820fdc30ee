import Handicap.Engine.Theorems.Executor
import Handicap.Engine.Trace

-- The budget of a trace.
namespace Engine

def httpCalls (steps : List StepTrace) : ℕ :=
  steps.countP (·.kind = .http)

theorem httpCalls_append {steps steps' : List StepTrace} :
    httpCalls (steps ++ steps') = httpCalls steps + httpCalls steps' :=
  List.countP_append

def RowsTrace.httpCalls (trace : RowsTrace) : ℕ :=
  (trace.rows.map fun row => Engine.httpCalls row.trace.steps).sum

namespace TraceState

variable {s full : TraceState}

-- A state of a trace with limits, and that of the same trace without them: they are the same, or
-- the first one has been cut, with something still to come.
def Follows (s full : TraceState) : Prop :=
  (s.truncated = false ∧ full = s) ∨
    (s.truncated = true ∧ ∃ v more, full.visits = s.visits ++ v :: more)

end TraceState

namespace Tracing

open TraceState (Follows)

variable (t : Tracing)

-- All that the scenario calls for is traced.
def unlimited : Tracing :=
  { t with maxRequests := none, maxWall := 1, clientError := none, now := fun _ => 0 }

-- No think time is cut by the deadline.
def ThinksFreely : Prop :=
  t.applyThinkTime = true → ∀ n, t.now n < t.deadline

variable {t} {s : TraceState} {k k' l l' : TraceState → TraceState}

theorem unlimited_isLate : t.unlimited.isLate s = false := by
  simp [isLate, deadline, unlimited]

theorem unlimited_isSpent : t.unlimited.isSpent s = false := by
  rw [isSpent, unlimited_isLate]
  simp [unlimited]

-- What a part of a trace with limits leaves, and the same part without them.
structure Tracks (visits : List Visit) (r full : TraceState) : Prop where
  follows : Follows r full
  live    : full.truncated = false
  grows   : visits <+: full.visits

def Sim (k k' : TraceState → TraceState) : Prop :=
  ∀ s, s.truncated = false → Tracks s.visits (k s) (k' s)

-- A part of a trace that does nothing once the trace has been cut.
def Stops (k : TraceState → TraceState) : Prop :=
  ∀ s, s.truncated = true → k s = s

theorem guarded_stops : Stops fun s => t.guarded s k := by
  intro s hs
  exact if_pos hs

theorem Sim.id : Sim id id :=
  fun _ hs => ⟨.inl ⟨hs, rfl⟩, hs, List.prefix_rfl⟩

-- What has been cut stays behind, as what comes after adds to the trace without limits only.
theorem Sim.comp (hk : Sim k k') (hl : Sim l l') (hs : Stops l) :
    Sim (fun s => l (k s)) (fun s => l' (k' s)) := by
  intro s h
  simp only
  have ⟨hf, hlive, hg⟩ := hk s h
  have ⟨hf', hlive', hg'⟩ := hl _ hlive
  refine ⟨?_, hlive', hg.trans hg'⟩
  obtain ⟨ht, he⟩ | ⟨ht, v, more, he⟩ := hf
  case inl =>
    rw [he] at hf' ⊢
    exact hf'
  case inr =>
    have ⟨rest, hr⟩ := hg'
    rw [hs _ ht]
    exact .inr ⟨ht, v, more ++ rest, by rw [← hr, he, List.append_assoc, List.cons_append]⟩

-- What has nothing to do with the budget may be changed.
theorem Tracks.map {visits : List Visit} {f : TraceState → TraceState} {r full : TraceState}
    (ht : ∀ s, (f s).truncated = s.truncated) (hv : ∀ s, (f s).visits = s.visits)
    (h : Tracks visits r full) : Tracks visits (f r) (f full) := by
  have ⟨hf, hlive, hg⟩ := h
  refine ⟨?_, (ht full).trans hlive, by rwa [hv]⟩
  obtain ⟨hr, he⟩ | ⟨hr, v, more, he⟩ := hf
  case inl => exact .inl ⟨(ht r).trans hr, by rw [he]⟩
  case inr => exact .inr ⟨(ht r).trans hr, v, more, by rw [hv, hv, he]⟩

-- Where the budget is spent, what would have been visited is missing.
theorem Sim.guarded {v : TraceState → Visit} (hk : Sim k k') :
    Sim (fun s => t.guarded s fun s => k (s.visit (v s)))
      (fun s => t.unlimited.guarded s fun s => k' (s.visit (v s))) := by
  intro s h
  simp only [Tracing.guarded, h, Bool.false_eq_true, if_false, unlimited_isSpent]
  have ⟨hf, hlive, hg⟩ := hk (s.look.visit (v s.look)) h
  refine ⟨?_, hlive, (List.prefix_append s.visits [v s.look]).trans hg⟩
  split_ifs
  case pos =>
    have ⟨more, hp⟩ := hg
    refine .inr ⟨rfl, v s.look, more, ?_⟩
    rw [← hp, TraceState.visit, List.append_assoc]
    rfl
  case neg => exact hf

theorem think_eq (ht : t.ThinksFreely) (thinkTime) (s : TraceState) :
    t.unlimited.think thinkTime s = t.think thinkTime s := by
  unfold think
  rw [unlimited_isLate]
  by_cases ha : t.applyThinkTime = true
  case pos =>
    have hl : t.isLate s.look = false := by simpa [isLate] using ht ha _
    rw [hl]
    rfl
  case neg => simp [ha, unlimited]

theorem think_same (ht : t.ThinksFreely) (thinkTime) (s : TraceState) :
    (t.think thinkTime s).truncated = s.truncated ∧ (t.think thinkTime s).visits = s.visits := by
  rw [← think_eq ht, think, unlimited_isLate]
  by_cases h : t.unlimited.applyThinkTime = true ∧ thinkTime.isSome = true
  case pos => simp [h, TraceState.look]
  case neg => simp [h]

theorem sim_http (ht : t.ThinksFreely) (step : HttpStep) (loopIndex defaultThink) :
    Sim (t.traceHttp step loopIndex defaultThink)
      (t.unlimited.traceHttp step loopIndex defaultThink) := by
  intro s h
  have he : t.unlimited.traceHttp step loopIndex defaultThink s =
      t.traceHttp step loopIndex defaultThink s := think_eq ht _ _
  have hs : (t.traceHttp step loopIndex defaultThink s).truncated = s.truncated ∧
      (t.traceHttp step loopIndex defaultThink s).visits = s.visits := think_same ht _ _
  rw [he]
  exact ⟨.inl ⟨hs.1.trans h, rfl⟩, hs.1.trans h, hs.2 ▸ List.prefix_rfl⟩

theorem sim_rounds {id : String} {body body' : ℕ → TraceState → TraceState}
    (hb : ∀ i, Sim (body i) (body' i)) (n i : ℕ) :
    Sim (t.traceRounds id body n i) (t.unlimited.traceRounds id body' n i) := by
  induction n generalizing i
  case zero   => exact Sim.id
  case succ n ih =>
    refine Sim.guarded ((hb i).comp (ih (i + 1)) ?_)
    cases n
    case zero   => exact fun _ _ => rfl
    case succ n => exact guarded_stops

theorem traceSteps_stops (steps : List Step) (loopIndex defaultThink) :
    Stops (t.traceSteps steps loopIndex defaultThink) := by
  intro s hs
  cases steps
  case nil  => rfl
  case cons => exact guarded_stops s hs

theorem traceBranches_stops (branches : List (String × List Step)) (b entry req loopIndex) :
    Stops (t.traceBranches branches b entry req loopIndex) := by
  intro s hs
  cases branches
  case nil       => rfl
  case cons b bs => exact if_pos hs

mutual

-- By induction on the steps.
theorem sim_step (ht : t.ThinksFreely) (step : Step) (loopIndex defaultThink) :
    Sim (t.traceStep step loopIndex defaultThink)
      (t.unlimited.traceStep step loopIndex defaultThink) := by
  cases step
  case http step => exact sim_http ht step loopIndex defaultThink
  case loop id name repeats body =>
    exact sim_rounds (fun i => sim_steps ht body (some i) defaultThink) repeats 0
  case ifStep id name cond thenSteps elifs elseSteps =>
    intro s h
    have hu : selectBranch t.unlimited.lib (t.unlimited.context loopIndex s) cond elifs elseSteps =
      selectBranch t.lib (t.context loopIndex s) cond elifs elseSteps := rfl
    simp only [traceStep, hu]
    cases selectBranch t.lib (t.context loopIndex s) cond elifs elseSteps
    case thenBranch => exact sim_steps ht thenSteps loopIndex defaultThink (s.push _) h
    case elif j     => exact sim_elif ht elifs j loopIndex defaultThink (s.push _) h
    case elseBranch => exact sim_steps ht elseSteps loopIndex defaultThink (s.push _) h
    case none       => exact sim_steps ht elseSteps loopIndex defaultThink (s.push _) h
  case parallel id name branches =>
    intro s h
    exact (sim_branches ht branches 0 s.vars s.req loopIndex s h).map
      (f := TraceState.turned) (fun _ => rfl) fun _ => rfl

theorem sim_steps (ht : t.ThinksFreely) (steps : List Step) (loopIndex defaultThink) :
    Sim (t.traceSteps steps loopIndex defaultThink)
      (t.unlimited.traceSteps steps loopIndex defaultThink) := by
  cases steps
  case nil             => exact Sim.id
  case cons step steps =>
    exact Sim.guarded ((sim_step ht step loopIndex defaultThink).comp
      (sim_steps ht steps loopIndex defaultThink) (traceSteps_stops _ _ _))

theorem sim_elif (ht : t.ThinksFreely) (elifs : List (Condition × List Step)) (j : ℕ)
    (loopIndex defaultThink) :
    Sim (t.traceElif elifs j loopIndex defaultThink)
      (t.unlimited.traceElif elifs j loopIndex defaultThink) := by
  cases elifs
  case nil => exact Sim.id
  case cons elif elifs =>
    obtain ⟨cond, steps⟩ := elif
    cases j
    case zero   => exact sim_steps ht steps loopIndex defaultThink
    case succ j => exact sim_elif ht elifs j loopIndex defaultThink

theorem sim_branches (ht : t.ThinksFreely) (branches : List (String × List Step))
    (b entry req loopIndex) :
    Sim (t.traceBranches branches b entry req loopIndex)
      (t.unlimited.traceBranches branches b entry req loopIndex) := by
  cases branches
  case nil => exact Sim.id
  case cons branch branches =>
    obtain ⟨name, steps⟩ := branch
    have hb : Sim
        (fun s => s.join name (collectOutputVarNames steps)
          (t.traceSteps steps loopIndex none (s.within entry req (b :: s.place) 0)))
        (fun s => s.join name (collectOutputVarNames steps)
          (t.unlimited.traceSteps steps loopIndex none (s.within entry req (b :: s.place) 0))) :=
      fun s h => (sim_steps ht steps loopIndex none (s.within entry req (b :: s.place) 0) h).map
        (fun _ => rfl) fun _ => rfl
    intro s h
    have hs := hb.comp (sim_branches ht branches (b + 1) entry req loopIndex)
      (traceBranches_stops _ _ _ _ _) s h
    simpa only [traceBranches, h, Bool.false_eq_true, if_false] using hs

end

-- So many requests are within the limit.
def Allows (t : Tracing) (requests : ℕ) : Prop :=
  ∀ limit ∈ t.maxRequests, requests ≤ limit

-- The requests of a pass, with those of the passes before it, are within the limit.
structure Budgeted (t : Tracing) (before : ℕ) (s : TraceState) : Prop where
  calls : httpCalls s.steps + before = s.requests
  limit : t.Allows s.requests

variable {before : ℕ}

theorem Budgeted.guarded (h : Budgeted t before s)
    (hk : ∀ s, Budgeted t before s → t.Allows (s.requests + 1) → Budgeted t before (k s)) :
    Budgeted t before (t.guarded s k) := by
  unfold Tracing.guarded
  by_cases ht : s.truncated = true
  case pos => exact (if_pos ht).symm ▸ h
  rw [if_neg ht]
  by_cases hs : t.isSpent s.look = true
  case pos => exact (if_pos hs).symm ▸ ⟨h.calls, h.limit⟩
  case neg =>
    rw [if_neg hs]
    refine hk _ ⟨h.calls, h.limit⟩ fun limit hm => Nat.lt_of_not_le fun hl => hs ?_
    rw [Option.mem_def] at hm
    simpa [isSpent, hm] using .inl hl

theorem think_budgeted (thinkTime) (h : Budgeted t before s) :
    Budgeted t before (t.think thinkTime s) := by
  unfold think
  by_cases ha : t.applyThinkTime = true ∧ thinkTime.isSome = true
  case neg => exact (if_neg ha).symm ▸ h
  rw [if_pos ha]
  by_cases hl : t.isLate s.look = true
  case pos => exact (if_pos hl).symm ▸ ⟨h.calls, h.limit⟩
  case neg => exact (if_neg hl).symm ▸ ⟨h.calls, h.limit⟩

theorem http_budgeted (step : HttpStep) (loopIndex defaultThink) (h : Budgeted t before s)
    (hr : t.Allows (s.requests + 1)) :
    Budgeted t before (t.traceHttp step loopIndex defaultThink s) := by
  refine think_budgeted _ ⟨?_, ?_⟩
  case refine_1 =>
    have hc := h.calls
    simp only [TraceState.push, TraceState.spend, TraceState.turned, TraceState.merge,
      TraceState.insert, httpCalls_append]
    simp only [httpCalls, List.countP_cons, List.countP_nil, decide_true, if_true] at hc ⊢
    omega
  case refine_2 => exact hr

theorem rounds_budgeted {id : String} {body : ℕ → TraceState → TraceState}
    (hb : ∀ i s, Budgeted t before s → Budgeted t before (body i s)) (n i : ℕ) {s : TraceState}
    (h : Budgeted t before s) : Budgeted t before (t.traceRounds id body n i s) := by
  induction n generalizing i s
  case zero      => exact h
  case succ n ih => exact h.guarded fun s hs _ => ih (i + 1) (hb i _ ⟨hs.calls, hs.limit⟩)

mutual

-- By induction on the steps.
theorem step_budgeted (step : Step) (loopIndex defaultThink) {s : TraceState}
    (h : Budgeted t before s) (hr : t.Allows (s.requests + 1)) :
    Budgeted t before (t.traceStep step loopIndex defaultThink s) := by
  cases step
  case http step => exact http_budgeted step loopIndex defaultThink h hr
  case loop id name repeats body =>
    exact rounds_budgeted (fun i s h => steps_budgeted body (some i) defaultThink h) repeats 0 h
  case ifStep id name cond thenSteps elifs elseSteps =>
    rw [traceStep]
    generalize selectBranch t.lib (t.context loopIndex s) cond elifs elseSteps = taken
    have hp : Budgeted t before
        (s.push (t.decision id loopIndex taken cond elifs (t.context loopIndex s))) := by
      refine ⟨?_, h.limit⟩
      rw [TraceState.push, httpCalls_append]
      exact h.calls
    cases taken
    case thenBranch => exact steps_budgeted thenSteps loopIndex defaultThink hp
    case elif j     => exact elif_budgeted elifs j loopIndex defaultThink hp
    case elseBranch => exact steps_budgeted elseSteps loopIndex defaultThink hp
    case none       => exact steps_budgeted elseSteps loopIndex defaultThink hp
  case parallel id name branches =>
    have hb := branches_budgeted branches 0 s.vars s.req loopIndex h
    exact ⟨hb.calls, hb.limit⟩

theorem steps_budgeted (steps : List Step) (loopIndex defaultThink) {s : TraceState}
    (h : Budgeted t before s) :
    Budgeted t before (t.traceSteps steps loopIndex defaultThink s) := by
  cases steps
  case nil             => exact h
  case cons step steps =>
    exact h.guarded fun s hs hr => steps_budgeted steps loopIndex defaultThink
      (step_budgeted step loopIndex defaultThink ⟨hs.calls, hs.limit⟩ hr)

theorem elif_budgeted (elifs : List (Condition × List Step)) (j : ℕ) (loopIndex defaultThink)
    {s : TraceState} (h : Budgeted t before s) :
    Budgeted t before (t.traceElif elifs j loopIndex defaultThink s) := by
  cases elifs
  case nil => exact h
  case cons elif elifs =>
    obtain ⟨cond, steps⟩ := elif
    cases j
    case zero   => exact steps_budgeted steps loopIndex defaultThink h
    case succ j => exact elif_budgeted elifs j loopIndex defaultThink h

theorem branches_budgeted (branches : List (String × List Step)) (b entry req loopIndex)
    {s : TraceState} (h : Budgeted t before s) :
    Budgeted t before (t.traceBranches branches b entry req loopIndex s) := by
  cases branches
  case nil => exact h
  case cons branch branches =>
    obtain ⟨name, steps⟩ := branch
    rw [traceBranches]
    split_ifs
    case pos => exact h
    case neg =>
      have hb := steps_budgeted steps loopIndex none (s := s.within entry req (b :: s.place) 0)
        ⟨h.calls, h.limit⟩
      exact branches_budgeted branches (b + 1) entry req loopIndex ⟨hb.calls, hb.limit⟩

end

section

variable (t)

-- What has been visited by the passes over the rows.
def visitedRows (scenario : Scenario) (seededRows : List (ℕ × Table String String)) : List Visit :=
  if t.clientError.isSome then [] else (t.traceRows scenario seededRows 0 start).2.2.visits

end

theorem traceOnce_budgeted (scenario : Scenario) (seedVars : Table String String) (iterId : ℕ)
    (h : t.Allows s.requests) :
    let r := t.traceOnce scenario seedVars iterId s
    httpCalls r.1.steps + s.requests = r.2.requests ∧ t.Allows r.2.requests :=
  have hb : Budgeted t s.requests (t.traceOnce scenario seedVars iterId s).2 :=
    steps_budgeted _ _ _ ⟨Nat.zero_add _, h⟩
  ⟨hb.calls, hb.limit⟩

theorem traceRows_budgeted (scenario : Scenario) (rows : List (ℕ × Table String String)) (i : ℕ)
    {s : TraceState} (h : t.Allows s.requests) :
    let r := t.traceRows scenario rows i s
    (r.1.map fun row => httpCalls row.trace.steps).sum + s.requests = r.2.2.requests ∧
      t.Allows r.2.2.requests := by
  induction rows generalizing i s
  case nil => exact ⟨Nat.zero_add _, h⟩
  case cons row rows ih =>
    obtain ⟨rowIndex, seed⟩ := row
    have hb := traceOnce_budgeted scenario seed (i % 2 ^ 32) (s := s.look.visit (.row rowIndex)) h
    simp only [traceRows]
    generalize t.traceOnce scenario seed (i % 2 ^ 32) (s.look.visit (.row rowIndex)) = r at hb ⊢
    obtain ⟨hcalls, hlimit⟩ : httpCalls r.1.steps + s.requests = r.2.requests ∧ _ := hb
    split_ifs
    case pos => exact ⟨Nat.zero_add _, h⟩
    case pos => exact ⟨by simpa using hcalls, hlimit⟩
    case neg =>
      have ⟨hsum, hlimit'⟩ := ih (i + 1) hlimit
      refine ⟨?_, hlimit'⟩
      rw [List.map_cons, List.sum_cons, Nat.add_comm (httpCalls _), Nat.add_assoc, hcalls]
      exact hsum

theorem traceOnce_tracks (ht : t.ThinksFreely) (scenario : Scenario)
    (seedVars : Table String String) (iterId : ℕ) (s : TraceState) :
    Tracks s.visits (t.traceOnce scenario seedVars iterId s).2
      (t.unlimited.traceOnce scenario seedVars iterId s).2 :=
  sim_steps ht scenario.steps none scenario.defaultThinkTime (t.enter scenario seedVars iterId s) rfl

theorem traceOnce_truncated (scenario : Scenario) (seedVars : Table String String) (iterId : ℕ)
    (s : TraceState) :
    (t.traceOnce scenario seedVars iterId s).1.truncated =
      (t.traceOnce scenario seedVars iterId s).2.truncated :=
  rfl

-- The passes over the rows, which have been cut or have come to all that the scenario calls for.
theorem traceRows_follows (ht : t.ThinksFreely) (scenario : Scenario)
    (rows : List (ℕ × Table String String)) (i : ℕ) (s : TraceState) :
    let r := t.traceRows scenario rows i s
    let full := t.unlimited.traceRows scenario rows i s
    s.visits <+: full.2.2.visits ∧
      (r.2.1 = false ∧ full.2.2.visits = r.2.2.visits ∨
        r.2.1 = true ∧ ∃ v more, full.2.2.visits = r.2.2.visits ++ v :: more) := by
  induction rows generalizing i s
  case nil => exact ⟨List.prefix_rfl, .inl ⟨rfl, rfl⟩⟩
  case cons row rows ih =>
    obtain ⟨rowIndex, seed⟩ := row
    have htr := traceOnce_tracks ht scenario seed (i % 2 ^ 32) (s.look.visit (.row rowIndex))
    have hts := @traceOnce_truncated t scenario seed (i % 2 ^ 32) (s.look.visit (.row rowIndex))
    have htu :=
      @traceOnce_truncated t.unlimited scenario seed (i % 2 ^ 32) (s.look.visit (.row rowIndex))
    simp only [traceRows, unlimited_isSpent, Bool.false_eq_true, if_false]
    generalize t.traceOnce scenario seed (i % 2 ^ 32) (s.look.visit (.row rowIndex)) = r at htr hts ⊢
    generalize t.unlimited.traceOnce scenario seed (i % 2 ^ 32) (s.look.visit (.row rowIndex)) = full
      at htr htu ⊢
    obtain ⟨hf, hlive, hg⟩ := htr
    have ⟨hg', hf'⟩ := ih (i + 1) full.2
    have hgs := hg.trans hg'
    simp only [htu, hlive, Bool.false_eq_true, if_false]
    refine ⟨(List.prefix_append s.visits [.row rowIndex]).trans hgs, ?_⟩
    by_cases hs : t.isSpent s.look = true
    case pos =>
      have ⟨more, hm⟩ := hgs
      simp only [hs, if_true]
      refine .inr ⟨trivial, .row rowIndex, more, ?_⟩
      rw [← hm, TraceState.visit, List.append_assoc]
      rfl
    case neg =>
      simp only [hs, hts, Bool.false_eq_true, if_false]
      obtain ⟨hr, he⟩ | ⟨hr, v, more, he⟩ := hf
      case inl =>
        rw [he] at hf' ⊢
        simp only [hr, Bool.false_eq_true, if_false]
        exact hf'
      case inr =>
        have ⟨rest, hrest⟩ := hg'
        simp only [hr, if_true]
        refine .inr ⟨trivial, v, more ++ rest, ?_⟩
        rw [← hrest, he, List.append_assoc, List.cons_append]

-- The rows that are reported come in the order in which they are requested, and only the last one
-- may have been cut.
theorem traceRows_prefix (scenario : Scenario) (rows : List (ℕ × Table String String)) (i : ℕ)
    (s : TraceState) :
    let r := t.traceRows scenario rows i s
    r.1.map RowTrace.rowIndex <+: rows.map Prod.fst ∧
      ∀ row ∈ r.1.dropLast, row.trace.truncated = false := by
  induction rows generalizing i s
  case nil => exact ⟨List.prefix_rfl, by simp [traceRows]⟩
  case cons row rows ih =>
    obtain ⟨rowIndex, seed⟩ := row
    simp only [traceRows]
    generalize t.traceOnce scenario seed (i % 2 ^ 32) (s.look.visit (.row rowIndex)) = r
    by_cases hs : t.isSpent s.look = true
    case pos => simp [hs]
    by_cases hr : r.1.truncated = true
    case pos => simp [hs, hr]
    case neg =>
      have ⟨hp, hd⟩ := ih (i + 1) r.2
      simp only [hs, hr, Bool.false_eq_true, if_false, List.map_cons]
      refine ⟨List.cons_prefix_cons.mpr ⟨rfl, hp⟩, ?_⟩
      cases hrest : (t.traceRows scenario rows (i + 1) r.2).1
      case nil => simp
      case cons row rest =>
        rw [hrest] at hd
        rw [List.dropLast_cons_cons, List.forall_mem_cons]
        exact ⟨by simpa using hr, hd⟩

-- A scenario of one request, which is not answered, and a trace of it with a limit of one request.
def oneRequest : Scenario where
  version          := 1
  name             := ""
  varDecls         := []
  cookieJar        := false
  defaultThinkTime := none
  notes            := none
  steps            := [.http ⟨"a", "", ⟨.get, "/", [], none, [], []⟩, [], [], none, none⟩]

def oneAllowed (clientError : Option String) : Tracing where
  lib            := plainLibraries
  env            := ∅
  maxRequests    := some 1
  maxWall        := 1
  applyThinkTime := true
  clientError    := clientError
  exchange       := fun _ _ => ⟨0, 0, 0, .error ⟨"refused", .connectRefused⟩⟩
  timedOut       := fun _ => false
  generated      := fun _ _ => ""
  now            := fun _ => 0

theorem oneAllowed_thinksFreely (clientError : Option String) :
    (oneAllowed clientError).ThinksFreely := by
  intro _ n
  simp [oneAllowed, deadline]

example : ((oneAllowed none).traceScenarioRows oneRequest [(0, ∅)]).truncated = false := by
  decide +kernel

end Tracing

end Engine
