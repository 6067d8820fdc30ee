import Handicap.Engine.Theorems.Executor
import Handicap.Engine.Theorems.Runner
import Handicap.Ui.OpenLoopChecks

open Engine
open Store (ThinkTime)

-- How long an iteration takes at most.
namespace Ui

-- The bounds of the times of a scenario, as the editor checks them.
def ThinkTimeValid (t : ThinkTime) : Prop :=
  t.minMs ≤ t.maxMs ∧ t.maxMs.val ≤ 600000

structure StepTimesValid (step : HttpStep) : Prop where
  timeout : ∀ s ∈ step.timeoutSeconds, 1 ≤ s ∧ s ≤ 600
  think   : ∀ t ∈ step.thinkTime, ThinkTimeValid t

structure TimesValid (scenario : Scenario) : Prop where
  steps   : ∀ step ∈ collectHttp scenario.steps, StepTimesValid step
  default : ∀ t ∈ scenario.defaultThinkTime, ThinkTimeValid t

-- No time goes by but for requests and think times, and every request ends within its timeout.
structure Timely (it : Iteration) : Prop where
  delay : ∀ address, it.outside.delay address = 0
  ends  : ∀ address request, (it.outside.exchange address request).duration ≤
    (request.timeout.map fun s : ℕ => (s : ℚ)).getD it.client.timeout

-- A run ends within a time from a strand.
def Within (bound : ℚ) (s : Strand) (r : Run) : Prop :=
  r.strand.clock ≤ s.clock + bound

namespace Within

variable {it : Iteration} {s : Strand} {r : Run} {k : Strand → Run} {b b' : ℚ}

theorem stop {flow : Except EngineError StepFlow} (hb : 0 ≤ b) : Within b s ⟨flow, s, []⟩ :=
  le_add_of_nonneg_right hb

theorem next (h : Within b s r) (hb : 0 ≤ b') (hk : ∀ s, Within b' s (k s)) :
    Within (b + b') s (r.next k) := by
  unfold Within at h hk ⊢
  unfold Run.next
  split
  case h_1 =>
    have hk := hk r.strand
    simp only
    linarith
  case h_2 => linarith

theorem guarded (ht : Timely it) (hb : 0 ≤ b) (hk : ∀ s, Within b s (k s)) :
    Within b s (it.guarded s k) := by
  have hl : (it.look s).clock = s.clock := by simp [Iteration.look, ht.delay]
  unfold Iteration.guarded
  simp only
  split_ifs
  case pos => exact hl.le.trans (le_add_of_nonneg_right hb)
  case pos => exact hl.le.trans (le_add_of_nonneg_right hb)
  case neg =>
    have hk := hk (it.look s)
    unfold Within at hk ⊢
    rwa [hl] at hk

theorem rounds (ht : Timely it) (hb : 0 ≤ b) {body : ℕ → Strand → Run}
    (hbody : ∀ i s, Within b s (body i s)) (n i : ℕ) (s : Strand) :
    Within (n * b) s (it.rounds body n i s) := by
  induction n generalizing i s
  case zero => exact stop (by simp)
  case succ n ih =>
    have hn : (0 : ℚ) ≤ n * b := mul_nonneg (Nat.cast_nonneg n) hb
    have he : ((n + 1 : ℕ) : ℚ) * b = b + n * b := by
      push_cast
      ring
    rw [he]
    exact guarded ht (add_nonneg hb hn) fun s => (hbody i s).next hn fun s => ih (i + 1) s

theorem sample_le {tt : ThinkTime} (hv : ThinkTimeValid tt) (draw : ℕ) :
    sampleThinkTime tt draw ≤ tt.maxMs.val := by
  have hle : tt.minMs.val ≤ tt.maxMs.val := hv.1
  have hmod : draw % (tt.maxMs.val - tt.minMs.val + 1) < tt.maxMs.val - tt.minMs.val + 1 :=
    Nat.mod_lt draw (Nat.succ_pos _)
  unfold sampleThinkTime
  simp only [max_eq_left hle]
  omega

theorem pace (ht : Timely it) {seconds : ℚ} (hs : 0 ≤ seconds) (s : Strand) :
    (it.pace seconds s).2.clock ≤ s.clock + seconds := by
  have hl : (it.look s).clock = s.clock := by simp [Iteration.look, ht.delay]
  unfold Iteration.pace
  simp only [hl]
  by_cases hd : it.deadline ≤ s.clock
  case pos =>
    simp only [if_pos hd, hl]
    exact le_add_of_nonneg_right hs
  case neg =>
    simp only [if_neg hd]
    have hcap : min seconds (it.deadline - s.clock) ≤ seconds := min_le_left _ _
    by_cases hc : min seconds (it.deadline - s.clock) ≤ 0
    case pos =>
      simp only [if_pos hc, hl]
      exact le_add_of_nonneg_right hs
    case neg =>
      simp only [if_neg hc]
      split
      case h_1 time hcancel =>
        have hle := of_decide_eq_true (Option.filter_eq_some_iff.mp hcancel).2
        exact max_le (le_add_of_nonneg_right hs) (by linarith)
      case h_2 => linarith

theorem think (ht : Timely it) {tt : Option ThinkTime} (hv : ∀ t ∈ tt, ThinkTimeValid t)
    (s : Strand) :
    Within ((tt.map fun t => (t.maxMs.val : ℚ)).getD 0 / 1000) s (it.think tt s) := by
  cases tt
  case none => exact stop (by simp)
  case some tt =>
    have hp := @pace it ht (sampleThinkTime tt (it.outside.draw s.address) / 1000) (by positivity)
      s.step
    have hle : (sampleThinkTime tt (it.outside.draw s.address) : ℚ) ≤ tt.maxMs.val :=
      Nat.cast_le.mpr <| sample_le (hv tt rfl) _
    have hclock : s.step.clock = s.clock := rfl
    unfold Within
    refine hp.trans ?_
    rw [hclock]
    simp only [Option.map_some, Option.getD_some]
    linarith

variable {httpTimeout : ℚ}

theorem executeStep_duration (ht : Timely it) {step : HttpStep} (hv : StepTimesValid step)
    {loopIndex : Option ℕ} {s : Strand} {request : HttpRequest} {outcome : ExecOutcome}
    {duration : ℚ} (h : it.executeStep step loopIndex s = .ok (request, outcome, duration)) :
    duration ≤ (step.timeoutSeconds.map fun s : ℕ => (s : ℚ)).getD it.client.timeout := by
  have ⟨request', hr, h⟩ := Guard.bind_eq_ok.mp h
  cases h
  have hf : step.timeoutSeconds.filter (0 < ·) = step.timeoutSeconds := by
    cases h : step.timeoutSeconds
    case none   => rfl
    case some a => exact if_pos <| decide_eq_true (hv.timeout a h).1
  have hd := ht.ends s.place request
  rwa [buildRequest_timeout hr, hf] at hd

theorem executeHttp (ht : Timely it) (h₀ : 0 ≤ it.client.timeout) {step : HttpStep}
    (hv : StepTimesValid step) {defaultThink : Option ThinkTime}
    (hd : ∀ t ∈ defaultThink, ThinkTimeValid t) (loopIndex : Option ℕ) (s : Strand) :
    Within (stepTimeBound it.client.timeout (.http step) defaultThink) s
      (it.executeHttp step loopIndex defaultThink s) := by
  have hthink : ∀ t ∈ step.thinkTime.or defaultThink, ThinkTimeValid t := by
    cases h : step.thinkTime
    case none   => exact fun t ht => hd t ht
    case some t => exact fun t' ht => hv.think t' (h ▸ ht)
  have hn : (0 : ℚ) ≤
      ((step.thinkTime.or defaultThink).map fun t => (t.maxMs.val : ℚ)).getD 0 / 1000 := by
    cases step.thinkTime.or defaultThink <;> simp
    positivity
  have hstep : 0 ≤ (step.timeoutSeconds.map fun s : ℕ => (s : ℚ)).getD it.client.timeout := by
    cases step.timeoutSeconds <;> simp [h₀]
  unfold Iteration.executeHttp
  simp only [stepTimeBound]
  split
  case h_1 => exact le_add_of_nonneg_right (add_nonneg hstep hn)
  case h_2 request outcome duration he =>
    have hle := executeStep_duration ht hv he
    refine next ?_ hn (think ht hthink)
    exact add_le_add_right hle _

theorem mergeAll_clock (branches : List BranchRun) (flow : StepFlow) (s : Strand) :
    (BranchRun.mergeAll branches flow s).strand.clock = s.clock := by
  induction branches generalizing flow s
  case nil => rfl
  case cons b branches ih =>
    rw [BranchRun.mergeAll]
    cases b.run.flow
    case error => rfl
    case ok    => exact ih _ _

theorem join (id : String) {branches : List BranchRun} {s : Strand} (hb : 0 ≤ b)
    (h : ∀ br ∈ branches, br.run.strand.clock ≤ s.clock + b) :
    Within b s (BranchRun.join id branches s) := by
  have hmax (l : List ℚ) (m : ℚ) (hm : m ≤ s.clock + b) (hl : ∀ x ∈ l, x ≤ s.clock + b) :
      l.foldl max m ≤ s.clock + b := by
    induction l generalizing m
    case nil => exact hm
    case cons x l ih =>
      exact ih _ (max_le hm (hl x List.mem_cons_self)) fun y hy => hl y (List.mem_cons_of_mem x hy)
  have hc := mergeAll_clock branches .continue
    { s.turned with clock := (branches.map fun b => b.run.strand.clock).foldl max s.clock }
  refine hc.trans_le (hmax _ _ (le_add_of_nonneg_right hb) fun x hx => ?_)
  obtain ⟨br, hbr, rfl⟩ := List.mem_map.mp hx
  exact h br hbr

end Within

section

variable {httpTimeout : ℚ}

mutual

theorem stepTimeBound_nonneg (h₀ : 0 ≤ httpTimeout) (step : Step) (defaultThink) :
    0 ≤ stepTimeBound httpTimeout step defaultThink := by
  cases step
  case http step =>
    have ht : 0 ≤ (step.timeoutSeconds.map fun s : ℕ => (s : ℚ)).getD httpTimeout := by
      cases step.timeoutSeconds <;> simp [h₀]
    have hn : 0 ≤ ((step.thinkTime.or defaultThink).map fun t => (t.maxMs.val : ℚ)).getD 0 := by
      cases step.thinkTime.or defaultThink <;> simp
    rw [stepTimeBound]
    positivity
  case loop id name repeats body =>
    exact mul_nonneg (Nat.cast_nonneg _) (stepsTimeBound_nonneg h₀ body defaultThink)
  case ifStep id name cond thenSteps elifs elseSteps =>
    exact le_max_of_le_right (stepsTimeBound_nonneg h₀ elseSteps defaultThink)
  case parallel id name branches => exact branchTimeBound_nonneg h₀ branches

theorem stepsTimeBound_nonneg (h₀ : 0 ≤ httpTimeout) (steps : List Step) (defaultThink) :
    0 ≤ iterationTimeUpperBoundSeconds httpTimeout steps defaultThink := by
  cases steps
  case nil => exact le_rfl
  case cons step steps =>
    exact add_nonneg (stepTimeBound_nonneg h₀ step defaultThink)
      (stepsTimeBound_nonneg h₀ steps defaultThink)

theorem branchTimeBound_nonneg (h₀ : 0 ≤ httpTimeout) (branches : List (String × List Step)) :
    0 ≤ branchTimeBound httpTimeout branches := by
  cases branches
  case nil          => exact le_rfl
  case cons b branches => exact le_max_of_le_right (branchTimeBound_nonneg h₀ branches)

end

end

theorem le_elifTimeBound (httpTimeout : ℚ) (elifs : List (Condition × List Step)) (defaultThink)
    (bound : ℚ) : bound ≤ elifTimeBound httpTimeout elifs defaultThink bound := by
  induction elifs generalizing bound
  case nil               => exact le_rfl
  case cons elif elifs ih => exact (le_max_left _ _).trans (ih _)

namespace Within

variable {it : Iteration}

theorem mono {s : Strand} {r : Run} {b b' : ℚ} (h : Within b s r) (hb : b ≤ b') : Within b' s r :=
  h.trans (add_le_add_right hb _)

mutual

-- By induction on the steps.
theorem executeOne (ht : Timely it) (h₀ : 0 ≤ it.client.timeout) (step : Step)
    (hv : ∀ h ∈ step.https, StepTimesValid h) {defaultThink : Option ThinkTime}
    (hd : ∀ t ∈ defaultThink, ThinkTimeValid t) (loopIndex) (s : Strand) :
    Within (stepTimeBound it.client.timeout step defaultThink) s
      (it.executeOne step loopIndex defaultThink s) := by
  cases step
  case http step => exact executeHttp ht h₀ (hv step List.mem_cons_self) hd loopIndex s
  case loop id name repeats body =>
    exact rounds ht (stepsTimeBound_nonneg h₀ body defaultThink)
      (fun i s => executeSteps ht h₀ body hv hd (some i) s) repeats 0 s
  case ifStep id name cond thenSteps elifs elseSteps =>
    have ⟨h₁₂, h₃⟩ := List.forall_mem_append.mp hv
    have ⟨h₁, h₂⟩ := List.forall_mem_append.mp h₁₂
    have hthen := stepsTimeBound_nonneg h₀ thenSteps defaultThink
    have hle := le_elifTimeBound it.client.timeout elifs defaultThink
      (iterationTimeUpperBoundSeconds it.client.timeout thenSteps defaultThink)
    have hr (label : String) : Within 0 s ⟨.ok .continue, s, [.branch id label]⟩ :=
      le_add_of_nonneg_right le_rfl
    rw [Iteration.executeOne, stepTimeBound, ← zero_add (max _ _)]
    refine (hr _).next (le_max_of_le_left (hthen.trans hle)) fun s => ?_
    split
    case h_1 => exact (executeSteps ht h₀ thenSteps h₁ hd loopIndex s).mono (le_max_of_le_left hle)
    case h_2 =>
      exact (executeElif ht h₀ elifs h₂ hd hthen _ loopIndex s).mono (le_max_left _ _)
    case h_3 => exact (executeSteps ht h₀ elseSteps h₃ hd loopIndex s).mono (le_max_right _ _)
  case parallel id name branches =>
    exact join id (branchTimeBound_nonneg h₀ branches)
      (executeBranches ht h₀ branches hv 0 loopIndex s)

theorem executeSteps (ht : Timely it) (h₀ : 0 ≤ it.client.timeout) (steps : List Step)
    (hv : ∀ h ∈ collectHttp steps, StepTimesValid h) {defaultThink : Option ThinkTime}
    (hd : ∀ t ∈ defaultThink, ThinkTimeValid t) (loopIndex) (s : Strand) :
    Within (iterationTimeUpperBoundSeconds it.client.timeout steps defaultThink) s
      (it.executeSteps steps loopIndex defaultThink s) := by
  cases steps
  case nil => exact stop le_rfl
  case cons step steps =>
    have ⟨h₁, h₂⟩ := List.forall_mem_append.mp hv
    have hb := stepTimeBound_nonneg h₀ step defaultThink
    have hbs := stepsTimeBound_nonneg h₀ steps defaultThink
    exact guarded ht (add_nonneg hb hbs) fun s =>
      (executeOne ht h₀ step h₁ hd loopIndex s).next hbs fun s =>
        executeSteps ht h₀ steps h₂ hd loopIndex s

theorem executeElif (ht : Timely it) (h₀ : 0 ≤ it.client.timeout)
    (elifs : List (Condition × List Step)) (hv : ∀ h ∈ collectElifHttp elifs, StepTimesValid h)
    {defaultThink : Option ThinkTime} (hd : ∀ t ∈ defaultThink, ThinkTimeValid t) {bound : ℚ}
    (hb : 0 ≤ bound) (j : ℕ) (loopIndex) (s : Strand) :
    Within (elifTimeBound it.client.timeout elifs defaultThink bound) s
      (it.executeElif elifs j loopIndex defaultThink s) := by
  cases elifs
  case nil => exact stop hb
  case cons elif elifs =>
    obtain ⟨cond, steps⟩ := elif
    have ⟨h₁, h₂⟩ := List.forall_mem_append.mp hv
    cases j
    case zero =>
      exact (executeSteps ht h₀ steps h₁ hd loopIndex s).mono
        ((le_max_right _ _).trans (le_elifTimeBound ..))
    case succ j => exact executeElif ht h₀ elifs h₂ hd (le_max_of_le_left hb) j loopIndex s

theorem executeBranches (ht : Timely it) (h₀ : 0 ≤ it.client.timeout)
    (branches : List (String × List Step))
    (hv : ∀ h ∈ collectBranchHttp branches, StepTimesValid h) (b : ℕ) (loopIndex) (s : Strand) :
    ∀ br ∈ it.executeBranches branches b loopIndex s,
      br.run.strand.clock ≤ s.clock + branchTimeBound it.client.timeout branches := by
  cases branches
  case nil => exact fun br hbr => absurd hbr List.not_mem_nil
  case cons branch branches =>
    obtain ⟨name, steps⟩ := branch
    have ⟨h₁, h₂⟩ := List.forall_mem_append.mp hv
    have hsteps : Within (iterationTimeUpperBoundSeconds it.client.timeout steps none) (s.fork b)
        (it.executeSteps steps loopIndex none (s.fork b)) :=
      executeSteps ht h₀ steps h₁ (by simp) loopIndex (s.fork b)
    have hrest := executeBranches ht h₀ branches h₂ (b + 1) loopIndex s
    refine List.forall_mem_cons.mpr ⟨?_, fun br hbr => ?_⟩
    case refine_1 => exact hsteps.mono (le_max_left _ _)
    case refine_2 => exact (hrest br hbr).trans (add_le_add_right (le_max_right _ _) _)

end

-- The variables and the rows are there at once.
theorem start_clock (it : Iteration) (scenario : Scenario) (rows : List (Table String String))
    (clock : ℚ) : (it.start scenario rows clock).clock = clock := by
  have hrows (s : Strand) : (rows.foldl (fun s row => s.merge row.toList) s).clock = s.clock := by
    induction rows generalizing s
    case nil               => rfl
    case cons row rows ih => exact ih _
  exact hrows _

-- An iteration ends within its bound.
theorem runIteration (ht : Timely it) (h₀ : 0 ≤ it.client.timeout) {scenario : Scenario}
    (hv : TimesValid scenario) (rows : List (Table String String)) (clock : ℚ) :
    (it.runIteration scenario rows clock).strand.clock ≤ clock +
      iterationTimeUpperBoundSeconds it.client.timeout scenario.steps scenario.defaultThinkTime := by
  have hw := executeSteps ht h₀ scenario.steps hv.steps hv.default none
    (it.start scenario rows clock)
  unfold Within at hw
  rwa [start_clock] at hw

end Within

-- A time of whole milliseconds that is none, or at least a second.
def IsBound (q : ℚ) : Prop :=
  ∃ k : ℕ, q = k / 1000 ∧ (k = 0 ∨ 1000 ≤ k)

namespace IsBound

variable {a b : ℚ}

theorem zero : IsBound 0 :=
  ⟨0, by simp, .inl rfl⟩

theorem seconds {s : ℕ} (h : 1 ≤ s) (ms : ℕ) : IsBound (s + ms / 1000) := by
  refine ⟨1000 * s + ms, ?_, .inr (by omega)⟩
  push_cast
  ring

theorem add (ha : IsBound a) (hb : IsBound b) : IsBound (a + b) := by
  obtain ⟨k, rfl, hk⟩ := ha
  obtain ⟨l, rfl, hl⟩ := hb
  refine ⟨k + l, ?_, by omega⟩
  push_cast
  ring

theorem mul (n : ℕ) (ha : IsBound a) : IsBound (n * a) := by
  induction n
  case zero => simpa using zero
  case succ n ih =>
    have he : ((n + 1 : ℕ) : ℚ) * a = n * a + a := by
      push_cast
      ring
    exact he ▸ ih.add ha

theorem max (ha : IsBound a) (hb : IsBound b) : IsBound (max a b) := by
  cases le_total a b
  case inl h => rwa [max_eq_right h]
  case inr h => rwa [max_eq_left h]

section

variable {httpTimeout : ℕ}

mutual

theorem step (ht : 1 ≤ httpTimeout) (step : Step) (hv : ∀ h ∈ step.https, StepTimesValid h)
    (defaultThink) :
    IsBound (stepTimeBound httpTimeout step defaultThink) := by
  cases step
  case http step =>
    have hv := hv step List.mem_cons_self
    rw [stepTimeBound]
    cases step.thinkTime.or defaultThink
    case none =>
      cases h : step.timeoutSeconds
      case none   => exact seconds ht 0
      case some s => exact seconds (hv.timeout s h).1 0
    case some t =>
      cases h : step.timeoutSeconds
      case none   => exact seconds ht _
      case some s => exact seconds (hv.timeout s h).1 _
  case loop id name repeats body => exact (steps ht body hv defaultThink).mul repeats
  case ifStep id name cond thenSteps elifs elseSteps =>
    have ⟨h₁₂, h₃⟩ := List.forall_mem_append.mp hv
    have ⟨h₁, h₂⟩ := List.forall_mem_append.mp h₁₂
    exact (elif ht elifs h₂ defaultThink (steps ht thenSteps h₁ defaultThink)).max
      (steps ht elseSteps h₃ defaultThink)
  case parallel id name branches => exact branch ht branches hv

theorem steps (ht : 1 ≤ httpTimeout) (l : List Step) (hv : ∀ h ∈ collectHttp l, StepTimesValid h)
    (defaultThink) :
    IsBound (iterationTimeUpperBoundSeconds httpTimeout l defaultThink) := by
  cases l
  case nil => exact zero
  case cons s l =>
    have ⟨h₁, h₂⟩ := List.forall_mem_append.mp hv
    exact (step ht s h₁ defaultThink).add (steps ht l h₂ defaultThink)

theorem elif (ht : 1 ≤ httpTimeout) (elifs : List (Condition × List Step))
    (hv : ∀ h ∈ collectElifHttp elifs, StepTimesValid h) (defaultThink) {bound : ℚ}
    (hb : IsBound bound) : IsBound (elifTimeBound httpTimeout elifs defaultThink bound) := by
  cases elifs
  case nil => exact hb
  case cons e elifs =>
    have ⟨h₁, h₂⟩ := List.forall_mem_append.mp hv
    exact elif ht elifs h₂ defaultThink (hb.max (steps ht e.2 h₁ defaultThink))

theorem branch (ht : 1 ≤ httpTimeout) (branches : List (String × List Step))
    (hv : ∀ h ∈ collectBranchHttp branches, StepTimesValid h) :
    IsBound (branchTimeBound httpTimeout branches) := by
  cases branches
  case nil => exact zero
  case cons b branches =>
    have ⟨h₁, h₂⟩ := List.forall_mem_append.mp hv
    exact (steps ht b.2 h₁ none).max (branch ht branches h₂)

end

end

end IsBound

end Ui
