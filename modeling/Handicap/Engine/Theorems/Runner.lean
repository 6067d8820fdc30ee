import Handicap.Engine.Runner

-- What the interpreter does to the line of control it runs in.
namespace Engine

section

variable (it : Iteration)

-- Looking and sleeping take time only.
theorem pace_snd (seconds : ℚ) (s : Strand) :
    ∃ clock, (it.pace seconds s).2 = { s.step with clock := clock } := by
  unfold Iteration.pace
  by_cases hd : it.deadline ≤ (it.look s).clock
  case pos => exact ⟨_, by simp only [if_pos hd]; rfl⟩
  case neg =>
    simp only [if_neg hd]
    by_cases hc : min seconds (it.deadline - (it.look s).clock) ≤ 0
    case pos => exact ⟨_, by simp only [if_pos hc]; rfl⟩
    case neg =>
      simp only [if_neg hc]
      split
      case h_1 => exact ⟨_, rfl⟩
      case h_2 => exact ⟨_, rfl⟩

theorem think_strand (thinkTime) (s : Strand) :
    ∃ tick clock, (it.think thinkTime s).strand = { s with tick := tick, clock := clock } := by
  cases thinkTime
  case none => exact ⟨s.tick, s.clock, rfl⟩
  case some tt =>
    have ⟨clock, h⟩ :=
      pace_snd it (sampleThinkTime tt (it.outside.draw s.address) / 1000) s.step
    exact ⟨_, clock, h⟩

end

-- The requests that the runs of a scenario send.
mutual

def Event.requests : Event → ℕ
  | .http _ _ _ _ (.ok _)    => 1
  | .http _ _ _ _ (.error _) => 0
  | .forked branches         => branchRequests branches
  | .paced _ _               => 0
  | .branch _ _              => 0
  | .merged _ _              => 0
  | .group _ _ _             => 0

def requests : List Event → ℕ
  | []       => 0
  | e :: log => e.requests + requests log

def branchRequests : List (String × List Event) → ℕ
  | []                   => 0
  | (_, log) :: branches => requests log + branchRequests branches

end

section

variable (lib : Libraries)

mutual

-- A number of requests that a step calls for, where the conditions of if steps are evaluated in any
-- context.
def Step.CallsFor : Step → ℕ → Prop
  | .http _, n                                => n = 1
  | .loop _ _ repeats body, n                 =>
    ∃ counts : List ℕ, counts.length = repeats ∧ (∀ c ∈ counts, stepsCallFor body c) ∧
      counts.sum = n
  | .ifStep _ _ cond thenSteps elifs elseSteps, n => ∃ ctx,
    match selectBranch lib ctx cond elifs elseSteps with
    | .thenBranch => stepsCallFor thenSteps n
    | .elif j     => elifCallsFor elifs j n
    | _           => stepsCallFor elseSteps n
  | .parallel _ _ branches, n                 => branchesCallFor branches n

def stepsCallFor : List Step → ℕ → Prop
  | [], n            => n = 0
  | step :: steps, n => ∃ a b, step.CallsFor a ∧ stepsCallFor steps b ∧ a + b = n

def elifCallsFor : List (Condition × List Step) → ℕ → ℕ → Prop
  | [], _, n                 => n = 0
  | (_, steps) :: _, 0, n    => stepsCallFor steps n
  | _ :: elifs, j + 1, n     => elifCallsFor elifs j n

def branchesCallFor : List (String × List Step) → ℕ → Prop
  | [], n                     => n = 0
  | (_, steps) :: branches, n => ∃ a b, stepsCallFor steps a ∧ branchesCallFor branches b ∧ a + b = n

end

end

variable {it : Iteration} {s : Strand} {r : Run} {k : Strand → Run} {log log' : List Event}

theorem requests_append : requests (log ++ log') = requests log + requests log' := by
  induction log
  case nil           => simp [requests]
  case cons e log ih => simp only [List.cons_append, requests, ih, Nat.add_assoc]

-- What comes to its end has done all of its parts.
theorem Run.next_continue (h : (r.next k).flow = .ok .continue) :
    r.flow = .ok .continue ∧ (k r.strand).flow = .ok .continue ∧
      (r.next k).log = r.log ++ (k r.strand).log := by
  unfold Run.next at h ⊢
  split at h
  case h_1 hr => exact ⟨hr, h, rfl⟩
  case h_2 hr => exact absurd h hr

theorem guarded_continue (h : (it.guarded s k).flow = .ok .continue) :
    it.guarded s k = k (it.look s) := by
  unfold Iteration.guarded at h ⊢
  simp only at h ⊢
  split_ifs at h ⊢
  case pos => cases h
  case pos => cases h
  case neg => rfl

theorem think_requests (thinkTime) (s : Strand) : requests (it.think thinkTime s).log = 0 := by
  cases thinkTime
  case none    => rfl
  case some tt => rfl

theorem mergeAll_continue {branches : List BranchRun} {flow : StepFlow}
    (h : (BranchRun.mergeAll branches flow s).flow = .ok .continue) :
    flow = .continue ∧ (∀ b ∈ branches, b.run.flow = .ok .continue) ∧
      requests (BranchRun.mergeAll branches flow s).log = 0 := by
  induction branches generalizing flow s
  case nil =>
    cases h
    exact ⟨rfl, by simp, rfl⟩
  case cons b branches ih =>
    rw [BranchRun.mergeAll] at h ⊢
    cases hf : b.run.flow
    case error e =>
      rw [hf] at h
      cases h
    case ok f =>
      rw [hf] at h
      have ⟨hflow, hb, hlog⟩ := ih h
      split_ifs at hflow with h₁ h₂
      have ⟨h₁, h₁'⟩ := not_or.mp h₁
      have ⟨h₂, h₂'⟩ := not_or.mp h₂
      have hc : f = .continue := by cases f <;> simp_all
      have hc' : flow = .continue := by cases flow <;> simp_all
      refine ⟨hc', List.forall_mem_cons.mpr ⟨by rw [hf, hc], hb⟩, ?_⟩
      simp only [requests, Event.requests, hlog]

theorem recordGroup_requests {id : String} {branches : List BranchRun} {start finish : ℚ}
    {flow : Except EngineError StepFlow} :
    requests (BranchRun.recordGroup id branches start finish flow) = 0 := by
  unfold BranchRun.recordGroup
  split
  case h_1 => rfl
  case h_2 => rfl

-- A parallel step that continues has seen all of its branches continue.
theorem join_continue {id : String} {branches : List BranchRun}
    (h : (BranchRun.join id branches s).flow = .ok .continue) :
    (∀ b ∈ branches, b.run.flow = .ok .continue) ∧
      requests (BranchRun.join id branches s).log =
        branchRequests (branches.map fun b => (b.name, b.run.log)) := by
  have ⟨_, hb, hlog⟩ := mergeAll_continue h
  refine ⟨hb, ?_⟩
  rw [BranchRun.join]
  simp only [List.cons_append, requests, requests_append, Event.requests, hlog,
    recordGroup_requests, Nat.add_zero]

variable (it) in
theorem rounds_callFor {body : ℕ → Strand → Run} {P : ℕ → Prop}
    (hb : ∀ i s, (body i s).flow = .ok .continue → P (requests (body i s).log)) (n i : ℕ) {s : Strand}
    (h : (it.rounds body n i s).flow = .ok .continue) :
    ∃ counts : List ℕ, counts.length = n ∧ (∀ c ∈ counts, P c) ∧
      counts.sum = requests (it.rounds body n i s).log := by
  induction n generalizing i s
  case zero => exact ⟨[], rfl, by simp, rfl⟩
  case succ n ih =>
    rw [Iteration.rounds] at h ⊢
    have hg := guarded_continue h
    rw [hg] at h ⊢
    have ⟨h₁, h₂, hlog⟩ := Run.next_continue h
    have ⟨counts, hlen, hc, hsum⟩ := ih (i + 1) h₂
    refine ⟨requests (body i (it.look s)).log :: counts, by rw [List.length_cons, hlen],
      List.forall_mem_cons.mpr ⟨hb i _ h₁, hc⟩, ?_⟩
    rw [hlog, requests_append, List.sum_cons, hsum]

theorem http_callFor {step : HttpStep} {loopIndex : Option ℕ} {defaultThink}
    (h : (it.executeHttp step loopIndex defaultThink s).flow = .ok .continue) :
    requests (it.executeHttp step loopIndex defaultThink s).log = 1 := by
  unfold Iteration.executeHttp at h ⊢
  simp only at h ⊢
  split at h
  case h_1 => cases h
  case h_2 request outcome duration he =>
    have ⟨_, _, hlog⟩ := Run.next_continue h
    rw [hlog, requests_append, think_requests]
    rfl

mutual

-- By induction on the steps.
theorem executeOne_callsFor (step : Step) (loopIndex defaultThink) {s : Strand}
    (h : (it.executeOne step loopIndex defaultThink s).flow = .ok .continue) :
    step.CallsFor it.lib (requests (it.executeOne step loopIndex defaultThink s).log) := by
  cases step
  case http step => exact http_callFor h
  case loop id name repeats body =>
    exact rounds_callFor it
      (fun i s h => executeSteps_callFor body (some i) defaultThink h) repeats 0 h
  case ifStep id name cond thenSteps elifs elseSteps =>
    rw [Iteration.executeOne] at h ⊢
    have ⟨_, h₂, hlog⟩ := Run.next_continue h
    rw [hlog, requests_append]
    refine ⟨it.context loopIndex s, ?_⟩
    cases ht : selectBranch it.lib (it.context loopIndex s) cond elifs elseSteps
    case thenBranch =>
      simp only [ht] at h₂ ⊢
      simpa [requests, Event.requests] using executeSteps_callFor thenSteps loopIndex defaultThink h₂
    case elif j =>
      simp only [ht] at h₂ ⊢
      simpa [requests, Event.requests] using executeElif_callsFor elifs j loopIndex defaultThink h₂
    case elseBranch =>
      simp only [ht] at h₂ ⊢
      simpa [requests, Event.requests] using executeSteps_callFor elseSteps loopIndex defaultThink h₂
    case none =>
      simp only [ht] at h₂ ⊢
      simpa [requests, Event.requests] using executeSteps_callFor elseSteps loopIndex defaultThink h₂
  case parallel id name branches =>
    have ⟨hb, hlog⟩ := join_continue h
    rw [Iteration.executeOne, hlog]
    exact executeBranches_callFor branches 0 loopIndex hb

theorem executeSteps_callFor (steps : List Step) (loopIndex defaultThink) {s : Strand}
    (h : (it.executeSteps steps loopIndex defaultThink s).flow = .ok .continue) :
    stepsCallFor it.lib steps (requests (it.executeSteps steps loopIndex defaultThink s).log) := by
  cases steps
  case nil => rfl
  case cons step steps =>
    rw [Iteration.executeSteps] at h ⊢
    have hg := guarded_continue h
    rw [hg] at h ⊢
    have ⟨h₁, h₂, hlog⟩ := Run.next_continue h
    rw [hlog, requests_append]
    exact ⟨_, _, executeOne_callsFor step loopIndex defaultThink h₁,
      executeSteps_callFor steps loopIndex defaultThink h₂, rfl⟩

theorem executeElif_callsFor (elifs : List (Condition × List Step)) (j : ℕ) (loopIndex defaultThink)
    {s : Strand} (h : (it.executeElif elifs j loopIndex defaultThink s).flow = .ok .continue) :
    elifCallsFor it.lib elifs j (requests (it.executeElif elifs j loopIndex defaultThink s).log) := by
  cases elifs
  case nil => rfl
  case cons elif elifs =>
    obtain ⟨cond, steps⟩ := elif
    cases j
    case zero   => exact executeSteps_callFor steps loopIndex defaultThink h
    case succ j => exact executeElif_callsFor elifs j loopIndex defaultThink h

theorem executeBranches_callFor (branches : List (String × List Step)) (b : ℕ) (loopIndex)
    {s : Strand} (h : ∀ br ∈ it.executeBranches branches b loopIndex s, br.run.flow = .ok .continue) :
    branchesCallFor it.lib branches
      (branchRequests
        ((it.executeBranches branches b loopIndex s).map fun b => (b.name, b.run.log))) := by
  cases branches
  case nil => rfl
  case cons branch branches =>
    obtain ⟨name, steps⟩ := branch
    have ⟨h₁, h₂⟩ := List.forall_mem_cons.mp h
    exact ⟨_, _, executeSteps_callFor steps loopIndex none h₁,
      executeBranches_callFor branches (b + 1) loopIndex h₂, rfl⟩

end

end Engine
