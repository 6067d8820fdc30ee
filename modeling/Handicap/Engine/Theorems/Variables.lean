import Handicap.Engine.Theorems.Refresh

-- Which variables there can be where a step is run.
namespace Engine

-- A step that has been reached, with the variables that its request is rendered with.
structure StepVisit where
  step      : HttpStep
  loopIndex : Option ℕ
  vars      : Table String String
  result    : Except EngineError (HttpRequest × ExecOutcome)

mutual

def Event.stepVisits : Event → List StepVisit
  | .http step loopIndex _ vars result => [⟨step, loopIndex, vars, result⟩]
  | .forked branches                   => branchStepVisits branches
  | .paced _ _                         => []
  | .branch _ _                        => []
  | .merged _ _                        => []
  | .group _ _ _                       => []

def stepVisits : List Event → List StepVisit
  | []       => []
  | e :: log => e.stepVisits ++ stepVisits log

def branchStepVisits : List (String × List Event) → List StepVisit
  | []                   => []
  | (_, log) :: branches => stepVisits log ++ branchStepVisits branches

end

-- The request of a visit is what rendering has made of it.
def Iteration.Answers (it : Iteration) (v : StepVisit) : Prop :=
  v.result.map Prod.fst =
    buildRequest it.lib ⟨v.vars, it.env, it.vuId, it.iterId, v.loopIndex⟩ v.step

mutual

-- Steps without parallel ones.
def Step.Sequential : Step → Prop
  | .http _                                 => True
  | .loop _ _ _ body                        => stepsSequential body
  | .ifStep _ _ _ thenSteps elifs elseSteps =>
    stepsSequential thenSteps ∧ elifsSequential elifs ∧ stepsSequential elseSteps
  | .parallel _ _ _                         => False

def stepsSequential : List Step → Prop
  | []            => True
  | step :: steps => step.Sequential ∧ stepsSequential steps

def elifsSequential : List (Condition × List Step) → Prop
  | []                  => True
  | (_, steps) :: elifs => stepsSequential steps ∧ elifsSequential elifs

end

-- A parallel step is at the top only.
def Step.TopLevel : Step → Prop
  | .parallel _ _ branches => ∀ b ∈ branches, stepsSequential b.2
  | step                   => step.Sequential

-- The HTTP steps, with what their branch extracts.
def Step.sites : Step → List (List String × HttpStep)
  | .parallel _ _ branches =>
    branches.flatMap fun b => (collectHttp b.2).map fun http => (collectOutputVarNames b.2, http)
  | step                   => step.https.map fun http => ([], http)

def sites (steps : List Step) : List (List String × HttpStep) :=
  steps.flatMap Step.sites

-- The names that are merged after a step.
def Step.mergedNames : Step → List String
  | .parallel _ _ branches =>
    branches.flatMap fun b => (collectOutputVarNames b.2).map fun k => s!"{b.1}.{k}"
  | _                      => []

-- The names that the variables of an iteration can have, outside of branches.
def Available (scenario : Scenario) (rows : List (Table String String)) (k : String) : Prop :=
  k ∈ scenario.varDecls.map Prod.fst ∨ (∃ row ∈ rows, (row.lookup k).isSome) ∨
    k ∈ collectOutputVarNames scenario.steps ∨ ∃ step ∈ scenario.steps, k ∈ step.mergedNames

def Bound (B : String → Prop) (vars : Table String String) : Prop :=
  ∀ k, (vars.lookup k).isSome → B k

-- All variables of a strand, and those that it generates again, have one of the names.
structure Within (B : String → Prop) (s : Strand) : Prop where
  vars : Bound B s.vars
  gens : ∀ rg ∈ s.req, ∀ n ∈ rg.plan.names, B n

variable {B : String → Prop} {vars : Table String String} {s s' : Strand}
variable {entries : List (String × String)} {log log' : List Event}

theorem stepVisits_append : stepVisits (log ++ log') = stepVisits log ++ stepVisits log' := by
  induction log
  case nil           => rfl
  case cons e log ih => simp [stepVisits, ih]

theorem Bound.insert {k v : String} (h : Bound B vars) (hk : B k) : Bound B (vars.insert k v) := by
  intro k' hk'
  by_cases he : k' = k
  case pos => exact he ▸ hk
  case neg =>
    rw [AList.lookup_insert_ne he] at hk'
    exact h k' hk'

theorem Bound.insertAll (h : Bound B vars) (he : ∀ e ∈ entries, B e.1) :
    Bound B (entries.foldl (fun vars e => vars.insert e.1 e.2) vars) := by
  induction entries generalizing vars
  case nil => exact h
  case cons e entries ih =>
    have ⟨h₁, h₂⟩ := List.forall_mem_cons.mp he
    exact ih (h.insert h₁) h₂

theorem Bound.mono {B' : String → Prop} (h : Bound B vars) (hB : ∀ k, B k → B' k) : Bound B' vars :=
  fun k hk => hB k (h k hk)

namespace Within

theorem of_eq (h : Within B s) (hv : s'.vars = s.vars) (hr : s'.req = s.req) : Within B s' :=
  ⟨hv ▸ h.vars, hr ▸ h.gens⟩

theorem insert (h : Within B s) (he : ∀ e ∈ entries, B e.1) : Within B (s.insert entries) :=
  ⟨h.vars.insertAll he, h.gens⟩

theorem merge (h : Within B s) (he : ∀ e ∈ entries, B e.1) : Within B (s.merge entries) where
  vars := h.vars.insertAll he
  gens := by
    intro rg hr n hn
    obtain ⟨rg, hm, rfl⟩ := Option.mem_map.mp hr
    rw [markWritten_plan] at hn
    exact h.gens rg hm n hn

theorem mono {B' : String → Prop} (h : Within B s) (hB : ∀ k, B k → B' k) : Within B' s :=
  ⟨h.vars.mono hB, fun rg hr n hn => hB n (h.gens rg hr n hn)⟩

theorem refreshed (h : Within B s) (generate : ℕ → GenSpec → String) (id : String) :
    ∀ e ∈ (s.req.map fun rg => rg.refreshed generate id).getD [], B e.1 := by
  cases hr : s.req
  case none => simp
  case some rg =>
    intro e he
    obtain ⟨i, _, hi⟩ := List.mem_filterMap.mp he
    split_ifs at hi
    obtain ⟨g, hg, rfl⟩ := Option.map_eq_some_iff.mp hi
    exact h.gens rg hr _ (List.mem_map.mpr ⟨g, List.mem_of_getElem? hg, rfl⟩)

end Within

theorem evaluateOne_var {lib : Libraries} {facts : ResponseFacts} {e : Extract} {p : String × String}
    (h : evaluateOne lib facts e = .ok p) : p.1 = e.var := by
  cases e
  case status var =>
    cases h
    rfl
  case body var path decode claim =>
    simp only [evaluateOne] at h
    cases hf : lib.fromSlice facts.body
    case error => simp [hf, bind, Except.bind] at h
    case ok json =>
      simp only [hf] at h
      obtain ⟨_, _, h⟩ := Guard.bind_eq_ok.mp h
      obtain ⟨_, _, h⟩ := Guard.bind_eq_ok.mp h
      obtain ⟨_, _, h⟩ := Guard.bind_eq_ok.mp h
      cases h
      rfl
  all_goals
    simp only [evaluateOne] at h
    obtain ⟨_, _, h⟩ := Guard.bind_eq_ok.mp h
    obtain ⟨_, _, h⟩ := Guard.bind_eq_ok.mp h
    cases h
    rfl

theorem evaluate_bound {lib : Libraries} {extracts : List Extract} {facts : ResponseFacts}
    {out : Table String String} (h : evaluate lib extracts facts = .ok out) :
    Bound (· ∈ extracts.map Extract.var) out := by
  refine Guard.foldlM_preserves (fun k hk => by cases hk) (fun e he out₁ out₂ hb h => ?_) h
  obtain ⟨p, hp, h⟩ := Guard.bind_eq_ok.mp h
  cases h
  exact hb.insert (List.mem_map.mpr ⟨e, he, (evaluateOne_var hp).symm⟩)

theorem respond_bound {lib : Libraries} {step : HttpStep} {measure : Bool} {ex : Exchange} :
    Bound (· ∈ step.extract.map Extract.var) (respond lib step measure ex).extracted := by
  have hempty : Bound (· ∈ step.extract.map Extract.var) ∅ := fun k hk => by cases hk
  unfold respond
  cases ex.outcome
  case error => exact hempty
  case ok resp =>
    simp only
    cases resp.body
    case error => exact hempty
    case ok body =>
      simp only
      cases checkAssertions resp.status step.assertions
      case some => exact hempty
      case none =>
        simp only
        cases he : evaluate lib step.extract ⟨resp.status, resp.headers, resp.setCookies, body⟩
        case error        => exact hempty
        case ok extracted => exact evaluate_bound he

theorem bound_toList (h : Bound B vars) : ∀ e ∈ vars.toList, B e.1 := by
  intro e he
  refine h e.1 ?_
  rw [Table.lookup_of_mem_toList he]
  rfl

-- What a run has to show for itself: its visits, and the names that it ends with.
structure Sees (B : String → Prop) (P : StepVisit → Prop) (r : Run) : Prop where
  strand : Within B r.strand
  visits : ∀ v ∈ stepVisits r.log, P v

namespace Sees

variable {P : StepVisit → Prop} {it : Iteration} {r : Run} {k : Strand → Run}

theorem stop {flow : Except EngineError StepFlow} (h : Within B s) : Sees B P ⟨flow, s, []⟩ :=
  ⟨h, by simp [stepVisits]⟩

theorem next (h : Sees B P r) (hk : ∀ s, Within B s → Sees B P (k s)) : Sees B P (r.next k) := by
  unfold Run.next
  split
  case h_1 =>
    have h' := hk _ h.strand
    refine ⟨h'.strand, ?_⟩
    rw [stepVisits_append]
    exact List.forall_mem_append.mpr ⟨h.visits, h'.visits⟩
  case h_2 => exact h

theorem guarded (h : Within B s) (hk : ∀ s, Within B s → Sees B P (k s)) :
    Sees B P (it.guarded s k) := by
  have h : Within B (it.look s) := h.of_eq rfl rfl
  unfold Iteration.guarded
  simp only
  split_ifs
  case pos => exact stop h
  case pos => exact stop h
  case neg => exact hk _ h

theorem rounds {body : ℕ → Strand → Run} (hb : ∀ i s, Within B s → Sees B P (body i s)) (n i : ℕ)
    (h : Within B s) : Sees B P (it.rounds body n i s) := by
  induction n generalizing i s
  case zero      => exact stop h
  case succ n ih => exact guarded h fun s h => (hb i s h).next fun s h => ih (i + 1) h

theorem think (thinkTime) (h : Within B s) : Sees B P (it.think thinkTime s) := by
  cases thinkTime
  case none => exact stop h
  case some tt =>
    have ⟨tick, clock, hs⟩ := think_strand it (some tt) s
    refine ⟨hs ▸ h.of_eq rfl rfl, ?_⟩
    simp [Iteration.think, stepVisits, Event.stepVisits]

theorem http {step : HttpStep}
    (hP : ∀ v : StepVisit, v.step = step → Bound B v.vars → it.Answers v → P v)
    (hx : ∀ k ∈ step.extract.map Extract.var, B k) (loopIndex defaultThink) (h : Within B s) :
    Sees B P (it.executeHttp step loopIndex defaultThink s) := by
  let generate (i : ℕ) := it.outside.generated (i :: s.place)
  let refreshed := (s.req.map fun rg => rg.refreshed generate step.id).getD []
  have hr : Within B (s.insert refreshed) := h.insert (h.refreshed generate step.id)
  -- The request is rendered with what there is after the variables have been generated.
  have hexec : (it.executeStep step loopIndex (s.insert refreshed)).map (fun p => p.1) =
      buildRequest it.lib (it.context loopIndex (s.insert refreshed)) step := by
    unfold Iteration.executeStep
    cases buildRequest it.lib (it.context loopIndex (s.insert refreshed)) step <;> rfl
  have hvisit (result) (ha : result.map Prod.fst =
      buildRequest it.lib (it.context loopIndex (s.insert refreshed)) step) :
      ∀ v ∈ stepVisits [.http step loopIndex refreshed (s.insert refreshed).vars result], P v := by
    simp only [stepVisits, Event.stepVisits, List.append_nil, List.mem_singleton, forall_eq]
    exact hP _ rfl hr.vars ha
  unfold Iteration.executeHttp
  simp only
  split
  case h_1 e he =>
    refine ⟨hr.of_eq rfl rfl, hvisit _ ?_⟩
    rw [← hexec, he]
    rfl
  case h_2 request outcome duration he =>
    have hbuild : buildRequest it.lib (it.context loopIndex (s.insert refreshed)) step =
        .ok request := by
      rw [← hexec, he]
      rfl
    refine next ⟨?_, hvisit _ hbuild.symm⟩ fun s h => think _ h
    have hout : Bound B outcome.extracted := by
      have ⟨request', _, h'⟩ := Guard.bind_eq_ok.mp he
      cases h'
      exact respond_bound.mono hx
    have hs : Within B (s.insert refreshed).turned := hr.of_eq rfl rfl
    exact (hs.merge (bound_toList hout)).of_eq rfl rfl

mutual

-- By induction on the steps.
theorem executeOne (step : Step) (hs : step.Sequential)
    (hP : ∀ http ∈ step.https, ∀ v : StepVisit, v.step = http → Bound B v.vars → it.Answers v → P v)
    (hx : ∀ k ∈ step.outputVarNames, B k) (loopIndex defaultThink) {s : Strand} (h : Within B s) :
    Sees B P (it.executeOne step loopIndex defaultThink s) := by
  cases step
  case http step => exact http (hP step List.mem_cons_self) hx loopIndex defaultThink h
  case loop id name repeats body =>
    exact rounds (fun i s h => executeSteps body hs hP hx (some i) defaultThink h) repeats 0 h
  case ifStep id name cond thenSteps elifs elseSteps =>
    have ⟨hthen, helifs, helse⟩ := hs
    have ⟨hP₁₂, hP₃⟩ := List.forall_mem_append.mp hP
    have ⟨hP₁, hP₂⟩ := List.forall_mem_append.mp hP₁₂
    have ⟨hx₁₂, hx₃⟩ := List.forall_mem_append.mp hx
    have ⟨hx₁, hx₂⟩ := List.forall_mem_append.mp hx₁₂
    have hr : Sees B P ⟨.ok .continue, s, [.branch id
        (selectBranch it.lib (it.context loopIndex s) cond elifs elseSteps).label]⟩ :=
      ⟨h, by simp [stepVisits, Event.stepVisits]⟩
    rw [Iteration.executeOne]
    refine hr.next fun s h => ?_
    split
    case h_1 => exact executeSteps thenSteps hthen hP₁ hx₁ loopIndex defaultThink h
    case h_2 => exact executeElif elifs helifs hP₂ hx₂ _ loopIndex defaultThink h
    case h_3 => exact executeSteps elseSteps helse hP₃ hx₃ loopIndex defaultThink h
  case parallel => exact hs.elim

theorem executeSteps (l : List Step) (hs : stepsSequential l)
    (hP : ∀ http ∈ collectHttp l, ∀ v : StepVisit, v.step = http → Bound B v.vars → it.Answers v → P v)
    (hx : ∀ k ∈ collectOutputVarNames l, B k) (loopIndex defaultThink) {s : Strand}
    (h : Within B s) : Sees B P (it.executeSteps l loopIndex defaultThink s) := by
  cases l
  case nil => exact stop h
  case cons step l =>
    have ⟨hP₁, hP₂⟩ := List.forall_mem_append.mp hP
    have ⟨hx₁, hx₂⟩ := List.forall_mem_append.mp hx
    exact guarded h fun s h =>
      (executeOne step hs.1 hP₁ hx₁ loopIndex defaultThink h).next fun s h =>
        executeSteps l hs.2 hP₂ hx₂ loopIndex defaultThink h

theorem executeElif (l : List (Condition × List Step)) (hs : elifsSequential l)
    (hP : ∀ http ∈ collectElifHttp l, ∀ v : StepVisit, v.step = http → Bound B v.vars → it.Answers v →
      P v)
    (hx : ∀ k ∈ elifOutputVarNames l, B k) (j : ℕ) (loopIndex defaultThink) {s : Strand}
    (h : Within B s) : Sees B P (it.executeElif l j loopIndex defaultThink s) := by
  cases l
  case nil => exact stop h
  case cons e l =>
    obtain ⟨cond, body⟩ := e
    have ⟨hP₁, hP₂⟩ := List.forall_mem_append.mp hP
    have ⟨hx₁, hx₂⟩ := List.forall_mem_append.mp hx
    cases j
    case zero   => exact executeSteps body hs.1 hP₁ hx₁ loopIndex defaultThink h
    case succ j => exact executeElif l hs.2 hP₂ hx₂ j loopIndex defaultThink h

end

theorem mergeAll {branches : List BranchRun} {flow : StepFlow} (h : Within B s)
    (hb : ∀ b ∈ branches, ∀ k ∈ b.outputs, B s!"{b.name}.{k}") :
    Sees B P (BranchRun.mergeAll branches flow s) := by
  induction branches generalizing flow s
  case nil => exact stop h
  case cons b branches ih =>
    have ⟨hb₁, hb₂⟩ := List.forall_mem_cons.mp hb
    rw [BranchRun.mergeAll]
    cases b.run.flow
    case error => exact stop h
    case ok f =>
      have hentries : ∀ e ∈ b.entries, B e.1 := by
        intro e he
        obtain ⟨k, hk, he⟩ := List.mem_filterMap.mp he
        obtain ⟨v, _, rfl⟩ := Option.map_eq_some_iff.mp he
        exact hb₁ k hk
      have h' := fun flow => @ih _ flow (h.merge hentries) hb₂
      exact ⟨(h' _).strand, (h' _).visits⟩

theorem join {id : String} {branches : List BranchRun} (h : Within B s)
    (hb : ∀ b ∈ branches, ∀ k ∈ b.outputs, B s!"{b.name}.{k}")
    (hv : ∀ v ∈ branchStepVisits (branches.map fun b => (b.name, b.run.log)), P v) :
    Sees B P (BranchRun.join id branches s) := by
  let clock := (branches.map fun b => b.run.strand.clock).foldl max s.clock
  have ht : Within B { s.turned with clock := clock } := h.of_eq rfl rfl
  have hm : Sees B P (BranchRun.mergeAll branches .continue { s.turned with clock := clock }) :=
    mergeAll ht hb
  have hgroup (flow) :
      stepVisits (BranchRun.recordGroup id branches s.clock clock flow) = [] := by
    unfold BranchRun.recordGroup
    split <;> simp [stepVisits, Event.stepVisits]
  refine ⟨hm.strand, ?_⟩
  simp only [BranchRun.join, stepVisits, Event.stepVisits, stepVisits_append, List.cons_append,
    List.forall_mem_append]
  refine ⟨hv, hm.visits, ?_⟩
  rw [hgroup]
  simp

theorem executeBranches (l : List (String × List Step)) (hs : ∀ b ∈ l, stepsSequential b.2)
    (hP : ∀ b ∈ l, ∀ http ∈ collectHttp b.2, ∀ v : StepVisit, v.step = http →
      Bound (fun k => k ∈ collectOutputVarNames b.2 ∨ B k) v.vars → it.Answers v → P v)
    (b : ℕ) (loopIndex) (h : Within B s) :
    ∀ v ∈ branchStepVisits ((it.executeBranches l b loopIndex s).map fun b => (b.name, b.run.log)),
      P v := by
  induction l generalizing b
  case nil => simp [Iteration.executeBranches, branchStepVisits]
  case cons e l ih =>
    obtain ⟨name, body⟩ := e
    obtain ⟨hs₁, hs₂⟩ := List.forall_mem_cons.mp hs
    obtain ⟨hP₁, hP₂⟩ := List.forall_mem_cons.mp hP
    have hf : Within (fun k => k ∈ collectOutputVarNames body ∨ B k) (s.fork b) :=
      (h.mono fun _ => .inr).of_eq rfl rfl
    rw [Iteration.executeBranches, List.map_cons, branchStepVisits]
    refine List.forall_mem_append.mpr ⟨?_, ih hs₂ hP₂ (b + 1)⟩
    exact (executeSteps body hs₁ hP₁ (fun _ => .inl) loopIndex none hf).visits

theorem branch_outputs (l : List (String × List Step)) (b : ℕ) (loopIndex) :
    (it.executeBranches l b loopIndex s).map (fun b => (b.name, b.outputs)) =
      l.map fun b => (b.1, collectOutputVarNames b.2) := by
  induction l generalizing b
  case nil => simp [Iteration.executeBranches]
  case cons e l ih => simp [Iteration.executeBranches, ih]

theorem parallel {id name : String} {branches : List (String × List Step)}
    (hs : ∀ b ∈ branches, stepsSequential b.2)
    (hP : ∀ b ∈ branches, ∀ http ∈ collectHttp b.2, ∀ v : StepVisit, v.step = http →
      Bound (fun k => k ∈ collectOutputVarNames b.2 ∨ B k) v.vars → it.Answers v → P v)
    (hm : ∀ b ∈ branches, ∀ k ∈ collectOutputVarNames b.2, B s!"{b.1}.{k}")
    (loopIndex defaultThink) (h : Within B s) :
    Sees B P (it.executeOne (.parallel id name branches) loopIndex defaultThink s) := by
  rw [Iteration.executeOne]
  refine join h (fun b hb k hk => ?_) (executeBranches branches hs hP 0 loopIndex h)
  have hmem : (b.name, b.outputs) ∈
      (it.executeBranches branches 0 loopIndex s).map fun b => (b.name, b.outputs) :=
    List.mem_map.mpr ⟨b, hb, rfl⟩
  rw [branch_outputs] at hmem
  obtain ⟨b', hb', he⟩ := List.mem_map.mp hmem
  have ⟨hname, houtputs⟩ := Prod.mk.inj he
  exact hname ▸ hm b' hb' k (houtputs ▸ hk)

-- By induction on the steps at the top.
theorem executeTop (l : List Step) (hl : ∀ step ∈ l, step.TopLevel)
    (hP : ∀ site ∈ sites l, ∀ v : StepVisit, v.step = site.2 →
      Bound (fun k => k ∈ site.1 ∨ B k) v.vars → it.Answers v → P v)
    (hx : ∀ k ∈ collectOutputVarNames l, B k) (hm : ∀ step ∈ l, ∀ k ∈ step.mergedNames, B k)
    (loopIndex defaultThink) (h : Within B s) :
    Sees B P (it.executeSteps l loopIndex defaultThink s) := by
  induction l generalizing s
  case nil => exact stop h
  case cons step l ih =>
    have ⟨hl₁, hl₂⟩ := List.forall_mem_cons.mp hl
    have ⟨hx₁, hx₂⟩ := List.forall_mem_append.mp hx
    have ⟨hm₁, hm₂⟩ := List.forall_mem_cons.mp hm
    have ⟨hP₁, hP₂⟩ := List.forall_mem_append.mp hP
    have hone {s : Strand} (h : Within B s) :
        Sees B P (it.executeOne step loopIndex defaultThink s) := by
      by_cases hpar : ∃ id name branches, step = .parallel id name branches
      case pos =>
        obtain ⟨id, name, branches, rfl⟩ := hpar
        refine parallel hl₁ (fun b hb http hh => ?_) (fun b hb k hk => ?_) loopIndex defaultThink h
        case refine_1 =>
          refine hP₁ (collectOutputVarNames b.2, http) ?_
          exact List.mem_flatMap.mpr ⟨b, hb, List.mem_map.mpr ⟨http, hh, rfl⟩⟩
        case refine_2 =>
          exact hm₁ _ (List.mem_flatMap.mpr ⟨b, hb, List.mem_map.mpr ⟨k, hk, rfl⟩⟩)
      case neg =>
        have hsites : step.sites = step.https.map fun http => ([], http) := by
          cases step
          case parallel id name branches => exact absurd ⟨id, name, branches, rfl⟩ hpar
          all_goals rfl
        have hseq : step.Sequential := by
          cases step
          case parallel id name branches => exact absurd ⟨id, name, branches, rfl⟩ hpar
          all_goals exact hl₁
        refine executeOne step hseq (fun http hh v hv hb => ?_) hx₁ loopIndex defaultThink h
        refine hP₁ ([], http) ?_ v hv (hb.mono fun _ => .inr)
        rw [hsites]
        exact List.mem_map.mpr ⟨http, hh, rfl⟩
    exact guarded h fun s h => (hone h).next fun s h => ih hl₂ hP₂ hx₂ hm₂ h

end Sees

theorem seed_bound (generate : ℕ → GenSpec → String) (varDecls : List (String × VarDecl)) :
    Bound (· ∈ varDecls.map Prod.fst) (seedIterVars generate varDecls) := by
  refine List.foldlRecOn _ _ (fun k hk => by cases hk) fun vars h d hd => ?_
  exact h.insert (List.mem_map.mpr ⟨d.1, List.fst_mem_of_mem_zipIdx hd, rfl⟩)

theorem build_names {fromStr : String → Option Json} {scenario : Scenario} {plan : RequestGenPlan}
    (h : RequestGenPlan.build fromStr scenario = some plan) :
    ∀ n ∈ plan.names, n ∈ scenario.varDecls.map Prod.fst := by
  unfold RequestGenPlan.build at h
  simp only at h
  split_ifs at h
  cases h
  intro n hn
  obtain ⟨g, hg, rfl⟩ := List.mem_map.mp hn
  obtain ⟨d, hd, hg⟩ := List.mem_filterMap.mp hg
  refine List.mem_map.mpr ⟨d, hd, ?_⟩
  split at hg
  case h_1 => cases hg; rfl
  case h_2 => cases hg

theorem start_within {it : Iteration} {scenario : Scenario} {rows : List (Table String String)}
    {clock : ℚ} : Within (Available scenario rows) (it.start scenario rows clock) := by
  have hbind (l : List (Table String String)) (hl : l ⊆ rows) {s : Strand}
      (h : Within (Available scenario rows) s) :
      Within (Available scenario rows) (l.foldl (fun s row => s.merge row.toList) s) := by
    induction l generalizing s
    case nil => exact h
    case cons row l ih =>
      have ⟨hr, hl⟩ := List.cons_subset.mp hl
      refine ih hl (h.merge (bound_toList fun k hk => .inr (.inl ⟨row, hr, hk⟩)))
  refine hbind rows (List.Subset.refl _) ⟨(seed_bound _ _).mono fun _ => .inl, ?_⟩
  intro rg hr n hn
  obtain ⟨plan, hp, rfl⟩ := Option.mem_map.mp hr
  exact .inl (build_names hp n hn)

-- Wherever a step is reached, every variable has been declared, bound by a row, extracted outside
-- of branches, merged, or extracted by the branch of the step.
theorem stepVisits_bound {it : Iteration} {scenario : Scenario} {rows : List (Table String String)}
    {clock : ℚ} (htop : ∀ step ∈ scenario.steps, step.TopLevel) :
    ∀ v ∈ stepVisits (it.runIteration scenario rows clock).log, it.Answers v ∧
      ∃ own, (own, v.step) ∈ sites scenario.steps ∧
        Bound (fun k => k ∈ own ∨ Available scenario rows k) v.vars := by
  refine (Sees.executeTop scenario.steps htop (fun site hs v hv hb ha => ⟨ha, site.1, ?_, hb⟩)
    (fun k hk => .inr (.inr (.inl hk))) (fun step hs k hk => .inr (.inr (.inr ⟨step, hs, hk⟩)))
    none _ start_within).visits
  exact hv ▸ hs

end Engine
