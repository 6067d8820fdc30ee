import Handicap.Engine.Theorems.Runner
import Handicap.Ui.Sizing
import Handicap.Ui.Theorems.SlowRun

open Engine

-- The range of the requests of an iteration holds, and is attained where the branches are free.
namespace Ui

namespace RequestRange

variable {r r' : RequestRange} {n m : ℕ}

def Has (r : RequestRange) (n : ℕ) : Prop :=
  r.min ≤ n ∧ n ≤ r.max

theorem Has.add (h : r.Has n) (h' : r'.Has m) : (r.add r').Has (n + m) :=
  ⟨Nat.add_le_add h.1 h'.1, Nat.add_le_add h.2 h'.2⟩

theorem Has.left (h : r.Has n) : (r.either r').Has n :=
  ⟨(min_le_left _ _).trans h.1, h.2.trans (le_max_left _ _)⟩

theorem Has.right (h : r'.Has n) : (r.either r').Has n :=
  ⟨(min_le_right _ _).trans h.1, h.2.trans (le_max_right _ _)⟩

theorem Has.sum {counts : List ℕ} (h : ∀ c ∈ counts, r.Has c) :
    (⟨counts.length * r.min, counts.length * r.max⟩ : RequestRange).Has counts.sum := by
  induction counts
  case nil => simp [Has]
  case cons c counts ih =>
    have ⟨hc, hcs⟩ := List.forall_mem_cons.mp h
    have ⟨h₁, h₂⟩ := ih hcs
    rw [List.length_cons, List.sum_cons]
    constructor
    case left  => linarith [hc.1, Nat.succ_mul counts.length r.min]
    case right => linarith [hc.2, Nat.succ_mul counts.length r.max]

end RequestRange

variable {lib : Libraries} {n : ℕ}

theorem elifs_has (elifs : List (Condition × List Step)) {range : RequestRange} (h : range.Has n) :
    (elifsRequestRange elifs range).Has n := by
  induction elifs generalizing range
  case nil               => exact h
  case cons elif elifs ih => exact ih h.left

theorem selectBranch_lt {ctx : TemplateContext} {cond : Condition}
    {elifs : List (Condition × List Step)} {elseSteps : List Step} {j : ℕ}
    (h : selectBranch lib ctx cond elifs elseSteps = .elif j) : j < elifs.length := by
  unfold selectBranch at h
  cases hc : evalCondition lib ctx cond
  case true => simp [hc] at h
  case false =>
    cases hf : elifs.findIdx? fun e => evalCondition lib ctx e.1
    case none =>
      simp only [hc, hf] at h
      split_ifs at h
    case some i =>
      simp only [hc, hf] at h
      cases h
      exact (List.findIdx?_eq_some_iff_getElem.mp hf).choose

mutual

-- By induction on the steps.
theorem step_has (step : Step) {n : ℕ} (h : step.CallsFor lib n) : (requestRange step).Has n := by
  cases step
  case http step => exact h ▸ ⟨le_rfl, le_rfl⟩
  case loop id name repeats body =>
    obtain ⟨counts, rfl, hc, rfl⟩ := h
    exact RequestRange.Has.sum fun c hm => steps_have body (hc c hm)
  case ifStep id name cond thenSteps elifs elseSteps =>
    obtain ⟨ctx, h⟩ := h
    cases ht : selectBranch lib ctx cond elifs elseSteps <;> rw [ht] at h
    case thenBranch => exact (elifs_has elifs (steps_have thenSteps h)).left
    case elif j     => exact (elif_has elifs (selectBranch_lt ht) h).left
    case elseBranch => exact (steps_have elseSteps h).right
    case none       => exact (steps_have elseSteps h).right
  case parallel id name branches => exact branches_have branches h

theorem steps_have (steps : List Step) {n : ℕ} (h : stepsCallFor lib steps n) :
    (iterationRequestRange steps).Has n := by
  cases steps
  case nil => exact h ▸ ⟨le_rfl, le_rfl⟩
  case cons step steps =>
    obtain ⟨a, b, ha, hb, rfl⟩ := h
    exact (step_has step ha).add (steps_have steps hb)

theorem elif_has (elifs : List (Condition × List Step)) {n j : ℕ} (hj : j < elifs.length)
    (h : elifCallsFor lib elifs j n) {range : RequestRange} :
    (elifsRequestRange elifs range).Has n := by
  cases elifs
  case nil => cases hj
  case cons elif elifs =>
    obtain ⟨cond, steps⟩ := elif
    cases j
    case zero   => exact elifs_has elifs (steps_have steps h).right
    case succ j => exact elif_has elifs (Nat.lt_of_succ_lt_succ hj) h

theorem branches_have (branches : List (String × List Step)) {n : ℕ}
    (h : branchesCallFor lib branches n) :
    (branchesRequestRange branches).Has n := by
  cases branches
  case nil => exact h ▸ ⟨le_rfl, le_rfl⟩
  case cons branch branches =>
    obtain ⟨a, b, ha, hb, rfl⟩ := h
    exact (steps_have branch.2 ha).add (branches_have branches hb)

end

-- A choice of a branch for every if step: none or its number, from the then branch on. What is
-- beyond the elifs is the else branch.
abbrev Pick := List Step → List (Condition × List Step) → List Step → ℕ

def constant (holds : Bool) : Condition :=
  if holds then .all [] else .any []

section

variable (pick : Pick)

mutual

-- The steps with conditions that take the chosen branches.
def steer : Step → Step
  | .http step                                 => .http step
  | .loop id name repeats body                 => .loop id name repeats (steerSteps body)
  | .ifStep id name _ thenSteps elifs elseSteps =>
    let k := pick thenSteps elifs elseSteps
    .ifStep id name (constant (k = 0)) (steerSteps thenSteps) (steerElifs k 1 elifs)
      (steerSteps elseSteps)
  | .parallel id name branches                 => .parallel id name (steerBranches branches)

def steerSteps : List Step → List Step
  | []            => []
  | step :: steps => steer step :: steerSteps steps

def steerElifs (k : ℕ) : ℕ → List (Condition × List Step) → List (Condition × List Step)
  | _, []                  => []
  | j, (_, steps) :: elifs => (constant (k = j), steerSteps steps) :: steerElifs k (j + 1) elifs

def steerBranches : List (String × List Step) → List (String × List Step)
  | []                        => []
  | (name, steps) :: branches => (name, steerSteps steps) :: steerBranches branches

end

mutual

-- The requests of the chosen branches.
def chosen : Step → ℕ
  | .http _                               => 1
  | .loop _ _ repeats body                => repeats * chosenOf body
  | .ifStep _ _ _ thenSteps elifs elseSteps =>
    let counts := chosenOf thenSteps :: chosenElifs elifs
    counts[pick thenSteps elifs elseSteps]?.getD (chosenOf elseSteps)
  | .parallel _ _ branches                => chosenBranches branches

def chosenOf : List Step → ℕ
  | []            => 0
  | step :: steps => chosen step + chosenOf steps

def chosenElifs : List (Condition × List Step) → List ℕ
  | []                  => []
  | (_, steps) :: elifs => chosenOf steps :: chosenElifs elifs

def chosenBranches : List (String × List Step) → ℕ
  | []                     => 0
  | (_, steps) :: branches => chosenOf steps + chosenBranches branches

end

end

theorem evalCondition_constant {ctx : TemplateContext} {holds : Bool} :
    evalCondition lib ctx (constant holds) = holds := by
  cases holds <;> rfl

variable {pick : Pick}

theorem find_steered {ctx : TemplateContext} (k j : ℕ) (elifs : List (Condition × List Step)) :
    ((steerElifs pick k j elifs).findIdx? fun e => evalCondition lib ctx e.1) =
      if j ≤ k ∧ k < j + elifs.length then some (k - j) else none := by
  induction elifs generalizing j
  case nil => simp [steerElifs]
  case cons elif elifs ih =>
    rw [steerElifs, List.findIdx?_cons, evalCondition_constant, ih]
    by_cases hk : k = j
    case pos => simp [hk]
    case neg =>
      simp only [decide_eq_false hk, Bool.false_eq_true, if_false, List.length_cons]
      by_cases hj : j + 1 ≤ k ∧ k < j + 1 + elifs.length
      case pos =>
        rw [if_pos hj, if_pos (by omega), Option.map_some]
        congr 1
        omega
      case neg =>
        rw [if_neg hj, if_neg (by omega)]
        rfl

theorem chosenElifs_length (elifs : List (Condition × List Step)) :
    (chosenElifs pick elifs).length = elifs.length := by
  induction elifs
  case nil               => rfl
  case cons elif elifs ih => rw [chosenElifs, List.length_cons, List.length_cons, ih]

theorem sum_eq_mul {counts : List ℕ} {c : ℕ} (h : ∀ x ∈ counts, x = c) :
    counts.sum = counts.length * c := by
  rw [List.eq_replicate_of_mem h]
  simp

mutual

-- By induction on the steps.
theorem steer_calls (step : Step) {n : ℕ} (h : (steer pick step).CallsFor lib n) :
    n = chosen pick step := by
  cases step
  case http step => exact h
  case loop id name repeats body =>
    obtain ⟨counts, rfl, hc, rfl⟩ := h
    exact sum_eq_mul fun c hm => steerSteps_call body (hc c hm)
  case ifStep id name cond thenSteps elifs elseSteps =>
    obtain ⟨ctx, h⟩ := h
    rw [chosen]
    simp only [selectBranch, evalCondition_constant, find_steered] at h
    cases hk : pick thenSteps elifs elseSteps
    case zero =>
      rw [hk] at h
      exact steerSteps_call thenSteps h
    case succ k =>
      rw [hk] at h
      by_cases hlt : k < elifs.length
      case pos =>
        have hin : 1 ≤ k + 1 ∧ k + 1 < 1 + elifs.length := by omega
        simp only [if_pos hin] at h
        rw [List.getElem?_cons_succ, steerElifs_call elifs _ _ hlt h]
        rfl
      case neg =>
        have hout : ¬(1 ≤ k + 1 ∧ k + 1 < 1 + elifs.length) := by omega
        have hnone : (chosenElifs pick elifs)[k]? = none :=
          List.getElem?_eq_none (by rw [chosenElifs_length]; omega)
        rw [List.getElem?_cons_succ, hnone]
        simp only [if_neg hout] at h
        cases hempty : (steerSteps pick elseSteps).isEmpty <;> rw [hempty] at h
        all_goals exact steerSteps_call elseSteps h
  case parallel id name branches => exact steerBranches_call branches h

theorem steerSteps_call (steps : List Step) {n : ℕ} (h : stepsCallFor lib (steerSteps pick steps) n) :
    n = chosenOf pick steps := by
  cases steps
  case nil => exact h
  case cons step steps =>
    obtain ⟨a, b, ha, hb, rfl⟩ := h
    rw [chosenOf, ← steer_calls step ha, ← steerSteps_call steps hb]

theorem steerElifs_call (elifs : List (Condition × List Step)) (k j : ℕ) {i n : ℕ}
    (hi : i < elifs.length) (h : elifCallsFor lib (steerElifs pick k j elifs) i n) :
    (chosenElifs pick elifs)[i]? = some n := by
  cases elifs
  case nil => cases hi
  case cons elif elifs =>
    obtain ⟨cond, steps⟩ := elif
    cases i
    case zero   => exact congrArg some (steerSteps_call steps h).symm
    case succ i => exact steerElifs_call elifs k (j + 1) (Nat.lt_of_succ_lt_succ hi) h

theorem steerBranches_call (branches : List (String × List Step)) {n : ℕ}
    (h : branchesCallFor lib (steerBranches pick branches) n) : n = chosenBranches pick branches := by
  cases branches
  case nil => exact h
  case cons branch branches =>
    obtain ⟨name, steps⟩ := branch
    obtain ⟨a, b, ha, hb, rfl⟩ := h
    rw [chosenBranches, ← steerSteps_call steps ha, ← steerBranches_call branches hb]

end

-- One of the ends of a range.
structure IsEnd (f : RequestRange → ℕ) : Prop where
  zero   : f ⟨0, 0⟩ = 0
  one    : f ⟨1, 1⟩ = 1
  times  : ∀ n r, f ⟨n * r.min, n * r.max⟩ = n * f r
  add    : ∀ r r', f (r.add r') = f r + f r'
  either : ∀ r r', f (r.either r') = f r ∨ f (r.either r') = f r'

theorem isEnd_min : IsEnd RequestRange.min :=
  ⟨rfl, rfl, fun _ _ => rfl, fun _ _ => rfl, fun r r' => min_choice r.min r'.min⟩

theorem isEnd_max : IsEnd RequestRange.max :=
  ⟨rfl, rfl, fun _ _ => rfl, fun _ _ => rfl, fun r r' => max_choice r.max r'.max⟩

-- The choice of the first branch that attains an end of the range.
def attain (f : RequestRange → ℕ) : Pick := fun thenSteps elifs elseSteps =>
  let range := (elifsRequestRange elifs (iterationRequestRange thenSteps)).either
    (iterationRequestRange elseSteps)
  (f (iterationRequestRange thenSteps) :: elifs.map fun e => f (iterationRequestRange e.2)).findIdx
    (· = f range)

variable {f : RequestRange → ℕ}

theorem elifs_end (hf : IsEnd f) (elifs : List (Condition × List Step)) (range : RequestRange) :
    f (elifsRequestRange elifs range) = f range ∨
      f (elifsRequestRange elifs range) ∈ elifs.map fun e => f (iterationRequestRange e.2) := by
  induction elifs generalizing range
  case nil => exact .inl rfl
  case cons elif elifs ih =>
    rw [elifsRequestRange, List.map_cons, List.mem_cons]
    cases ih (range.either (iterationRequestRange elif.2))
    case inr h => exact .inr (.inr h)
    case inl h =>
      rw [h]
      exact (hf.either _ _).imp_right .inl

-- What has been found in a list is what it was looked for, or it is not in the list.
theorem getElem?_findIdx (l : List ℕ) (n : ℕ) :
    l[l.findIdx (· = n)]? = some n ∨ l[l.findIdx (· = n)]? = none ∧ n ∉ l := by
  by_cases h : l.findIdx (· = n) < l.length
  case pos =>
    have hn : l[l.findIdx (· = n)] = n := of_decide_eq_true (List.findIdx_getElem (w := h))
    exact .inl (by rw [List.getElem?_eq_getElem h, hn])
  case neg =>
    refine .inr ⟨List.getElem?_eq_none (not_lt.mp h), fun hm => h ?_⟩
    exact List.findIdx_lt_length_of_exists ⟨n, hm, decide_eq_true rfl⟩

mutual

theorem chosen_attain (hf : IsEnd f) (step : Step) :
    chosen (attain f) step = f (requestRange step) := by
  cases step
  case http step => exact hf.one.symm
  case loop id name repeats body =>
    rw [chosen, requestRange, hf.times, chosenOf_attain hf body]
  case ifStep id name cond thenSteps elifs elseSteps =>
    have hthen := chosenOf_attain hf thenSteps
    have helifs := chosenElifs_attain hf elifs
    have helse := chosenOf_attain hf elseSteps
    rw [chosen, requestRange, hthen, helifs, helse]
    cases getElem?_findIdx
      (f (iterationRequestRange thenSteps) :: elifs.map fun e => f (iterationRequestRange e.2))
      (f ((elifsRequestRange elifs (iterationRequestRange thenSteps)).either
        (iterationRequestRange elseSteps)))
    case inl h =>
      simp only [attain, h, Option.getD_some]
    case inr h =>
      have ⟨h, hm⟩ := h
      simp only [attain, h, Option.getD_none]
      cases hf.either (elifsRequestRange elifs (iterationRequestRange thenSteps))
        (iterationRequestRange elseSteps)
      case inr he => exact he.symm
      case inl he =>
        rw [he] at hm
        exact absurd (List.mem_cons.mpr (elifs_end hf elifs _)) hm
  case parallel id name branches => exact chosenBranches_attain hf branches

theorem chosenOf_attain (hf : IsEnd f) (steps : List Step) :
    chosenOf (attain f) steps = f (iterationRequestRange steps) := by
  cases steps
  case nil => exact hf.zero.symm
  case cons step steps =>
    rw [chosenOf, iterationRequestRange, hf.add, chosen_attain hf step, chosenOf_attain hf steps]

theorem chosenElifs_attain (hf : IsEnd f) (elifs : List (Condition × List Step)) :
    chosenElifs (attain f) elifs = elifs.map fun e => f (iterationRequestRange e.2) := by
  cases elifs
  case nil => rfl
  case cons elif elifs =>
    rw [chosenElifs, List.map_cons, chosenOf_attain hf elif.2, chosenElifs_attain hf elifs]

theorem chosenBranches_attain (hf : IsEnd f) (branches : List (String × List Step)) :
    chosenBranches (attain f) branches = f (branchesRequestRange branches) := by
  cases branches
  case nil => exact hf.zero.symm
  case cons branch branches =>
    rw [chosenBranches, branchesRequestRange, hf.add, chosenOf_attain hf branch.2,
      chosenBranches_attain hf branches]

end

def steerScenario (pick : Pick) (scenario : Scenario) : Scenario :=
  { scenario with steps := steerSteps pick scenario.steps }

-- The if steps are free: whichever branches they are made to take, there is a run to the end.
def Free (scenario : Scenario) : Prop :=
  ∀ pick : Pick, ∃ (it : Iteration) (rows : List (Table String String)) (clock : ℚ),
    (it.runIteration (steerScenario pick scenario) rows clock).flow = .ok .continue

-- A run to the end that takes some branches and sends a number of requests.
def Sends (scenario : Scenario) (n : ℕ) : Prop :=
  ∃ (pick : Pick) (it : Iteration) (rows : List (Table String String)) (clock : ℚ),
    (it.runIteration (steerScenario pick scenario) rows clock).flow = .ok .continue ∧
      requests (it.runIteration (steerScenario pick scenario) rows clock).log = n

theorem sends_end {scenario : Scenario} (hf : IsEnd f) (h : Free scenario) :
    Sends scenario (f (iterationRequestRange scenario.steps)) := by
  have ⟨it, rows, clock, hflow⟩ := h (attain f)
  refine ⟨attain f, it, rows, clock, hflow, ?_⟩
  rw [← chosenOf_attain hf]
  exact steerSteps_call _ (executeSteps_callFor _ _ _ hflow)

-- Every iteration that comes to its end sends a number of requests in the range, and both ends of
-- it are attained where the if steps are free.
theorem request_range_tight (scenario : Scenario) :
    (∀ (it : Iteration) (rows : List (Table String String)) (clock : ℚ),
      (it.runIteration scenario rows clock).flow = .ok .continue →
        (iterationRequestRange scenario.steps).Has
          (requests (it.runIteration scenario rows clock).log)) ∧
    (Free scenario → Sends scenario (iterationRequestRange scenario.steps).min ∧
      Sends scenario (iterationRequestRange scenario.steps).max) :=
  ⟨fun _ _ _ h => steps_have _ (executeSteps_callFor _ _ _ h),
    fun h => ⟨sends_end isEnd_min h, sends_end isEnd_max h⟩⟩

-- A request that is sent or not.
def optionalRequest : Scenario :=
  { version := 1, name := "optional", varDecls := [], cookieJar := true, defaultThinkTime := none,
    notes := none, steps := [.ifStep "if" "" (.any []) [.http (slowStep "get" none)] [] []] }

theorem optionalRequest_free : Free optionalRequest := by
  intro pick
  refine ⟨slowIteration 2, [], 0, ?_⟩
  have hstart := Within.start_clock (slowIteration 2) (steerScenario pick optionalRequest) [] 0
  have hflow (holds : Bool) (s : Strand) (hs : s.clock = 0) : Reaches ((slowIteration 2).executeSteps
      [.ifStep "if" "" (constant holds) [.http (slowStep "get" none)] [] []] none none s)
        (if holds then 1 else 0) := by
    refine Reaches.guarded (by rw [hs]; norm_num) fun s' hs' => ?_
    refine Reaches.next ?_ fun s'' hs'' => ⟨rfl, hs''⟩
    rw [Iteration.executeOne]
    have hr (label : String) : Reaches ⟨.ok .continue, s', [.branch "if" label]⟩ s'.clock := ⟨rfl, rfl⟩
    refine (hr _).next fun t ht => ?_
    rw [hs', hs] at ht
    cases holds
    case false => exact ⟨rfl, ht⟩
    case true =>
      refine Reaches.guarded (by rw [ht]; norm_num) fun t' ht' => ?_
      have hget : Reaches ((slowIteration 2).executeHttp (slowStep "get" none) none none t') 1 :=
        slow_http fun t'' ht'' => ⟨rfl, ht''.trans (by rw [ht', ht, zero_add])⟩
      exact Reaches.next hget fun t'' ht'' => ⟨rfl, ht''⟩
  exact (hflow _ _ hstart).flow

theorem optionalRequest_sends : Sends optionalRequest 0 ∧ Sends optionalRequest 1 :=
  (request_range_tight optionalRequest).2 optionalRequest_free

end Ui
