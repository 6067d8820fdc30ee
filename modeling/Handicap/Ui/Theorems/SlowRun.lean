import Handicap.Ui.Theorems.IterationTime

open Engine
open Store (ThinkTime U32)

-- A run that takes as long as it can.
namespace Ui

def slowStep (id : String) (thinkTime : Option ThinkTime) : HttpStep :=
  { id, name := id, request := ⟨.get, "http://localhost/", [], none, [], []⟩, assertions := [],
    extract := [], timeoutSeconds := none, thinkTime }

def slowSteps (ids : List String) (ms : U32) : List Step :=
  ids.map (fun id => .http (slowStep id none)) ++ [.http (slowStep "last" (some ⟨ms, ms⟩))]

-- A number of requests, with a think time after the last one.
def slowScenario (n : ℕ) (ms : U32) : Scenario :=
  { version := 1, name := "slow", varDecls := [], cookieJar := true, defaultThinkTime := none,
    notes := none, steps := slowSteps ((List.range n).map toString) ms }

def slowLibraries : Libraries :=
  { fromStr     := fun _ => none
    fromSlice   := fun _ => .error ""
    print       := fun _ => ""
    debug       := id
    jsonPath    := fun _ => none
    base64      := fun _ _ => none
    regex       := fun _ => none
    parseF64    := fun _ => none
    headerName  := .ok
    headerValue := .ok }

-- Every answer comes at the timeout.
def slowIteration (deadline : ℚ) : Iteration :=
  { lib         := slowLibraries
    outside     :=
      { exchange  := fun _ request =>
          ⟨(request.timeout.map fun s : ℕ => (s : ℚ)).getD 1, 0, 0, .ok ⟨200, [], [], 0, .ok []⟩⟩
        generated := fun _ _ => ""
        draw      := fun _ => 0
        delay     := fun _ => 0 }
    client      := ⟨1, false⟩
    env         := ∅
    vuId        := 0
    iterId      := 0
    deadline
    cancelledAt := none }

theorem slow_timely (deadline : ℚ) : Timely (slowIteration deadline) where
  delay _  := rfl
  ends _ _ := by simp [slowIteration, Exchange.duration]

theorem slowStep_valid {id : String} {thinkTime : Option ThinkTime}
    (h : ∀ t ∈ thinkTime, ThinkTimeValid t) : StepTimesValid (slowStep id thinkTime) :=
  ⟨fun s hs => absurd hs (by simp [slowStep]), h⟩

theorem slow_valid {n : ℕ} {ms : U32} (h : ms.val ≤ 600000) : TimesValid (slowScenario n ms) where
  steps := by
    have hsteps (ids : List String) :
        ∀ step ∈ collectHttp (slowSteps ids ms), StepTimesValid step := by
      induction ids
      case nil =>
        refine List.forall_mem_append.mpr ⟨fun step hs => ?_, by simp [collectHttp]⟩
        rw [List.mem_singleton.mp hs]
        refine slowStep_valid fun t ht => ?_
        rw [← Option.some.inj ht]
        exact ⟨le_rfl, h⟩
      case cons id ids ih =>
        refine List.forall_mem_append.mpr ⟨fun step hs => ?_, ih⟩
        rw [List.mem_singleton.mp hs]
        exact slowStep_valid (by simp)
    exact hsteps _
  default t ht := by cases ht

theorem slow_bound (n : ℕ) (ms : U32) :
    iterationTimeUpperBoundSeconds (1 : ℕ) (slowScenario n ms).steps
      (slowScenario n ms).defaultThinkTime = n + 1 + ms.val / 1000 := by
  have hsteps (ids : List String) :
      iterationTimeUpperBoundSeconds (1 : ℕ) (slowSteps ids ms) none =
        ids.length + 1 + ms.val / 1000 := by
    induction ids
    case nil => simp [slowSteps, iterationTimeUpperBoundSeconds, stepTimeBound, slowStep]
    case cons id ids ih =>
      have hcons : iterationTimeUpperBoundSeconds (1 : ℕ) (slowSteps (id :: ids) ms) none =
          stepTimeBound (1 : ℕ) (.http (slowStep id none)) none +
            iterationTimeUpperBoundSeconds (1 : ℕ) (slowSteps ids ms) none := rfl
      rw [hcons, ih, stepTimeBound]
      simp [slowStep]
      ring
  exact (hsteps _).trans (by simp)

section

variable {deadline : ℚ} {s : Strand}

-- A run that has got to a time with nothing to stop it.
structure Reaches (r : Run) (clock : ℚ) : Prop where
  flow  : r.flow = .ok .continue
  clock : r.strand.clock = clock

theorem Reaches.next {r : Run} {k : Strand → Run} {clock clock' : ℚ} (h : Reaches r clock)
    (hk : ∀ s : Strand, s.clock = clock → Reaches (k s) clock') : Reaches (r.next k) clock' := by
  have hn : r.next k = { k r.strand with log := r.log ++ (k r.strand).log } := by
    rw [Run.next, h.flow]
  have hk := hk r.strand h.clock
  exact hn ▸ ⟨hk.flow, hk.clock⟩

theorem Reaches.guarded {k : Strand → Run} {clock : ℚ} (h : s.clock < deadline)
    (hk : ∀ s' : Strand, s'.clock = s.clock → Reaches (k s') clock) :
    Reaches ((slowIteration deadline).guarded s k) clock := by
  have hl : ((slowIteration deadline).look s).clock = s.clock := by
    simp [Iteration.look, slowIteration]
  have hk := hk _ hl
  unfold Iteration.guarded
  simp only
  rw [if_neg (by rw [hl]; exact not_le.mpr h), if_neg (by simp [Iteration.isCancelled, slowIteration])]
  exact hk

theorem slow_pace {seconds : ℚ} (hs : 0 ≤ seconds) (h : s.clock + seconds < deadline) :
    ((slowIteration deadline).pace seconds s).1 = .slept ∧
      ((slowIteration deadline).pace seconds s).2.clock = s.clock + seconds := by
  have hl : ((slowIteration deadline).look s).clock = s.clock := by
    simp [Iteration.look, slowIteration]
  have hd : ¬(slowIteration deadline).deadline ≤ s.clock := by
    have hd : (slowIteration deadline).deadline = deadline := rfl
    rw [hd]
    linarith
  have hr : seconds < (slowIteration deadline).deadline - s.clock := by
    have hd : (slowIteration deadline).deadline = deadline := rfl
    rw [hd]
    linarith
  unfold Iteration.pace
  simp only [hl, if_neg hd, min_eq_left hr.le]
  by_cases hc : seconds ≤ 0
  case pos =>
    simp only [if_pos hc, hl, true_and]
    linarith
  case neg =>
    have hn : (slowIteration deadline).cancelledAt = none := rfl
    simp only [if_neg hc, hn, Option.filter_none, if_neg (not_lt.mpr hr.le), true_and]

theorem slow_think {ms : U32} (h : s.clock + ms.val / 1000 < deadline) :
    Reaches ((slowIteration deadline).think (some ⟨ms, ms⟩) s) (s.clock + ms.val / 1000) := by
  have hms (draw : ℕ) : sampleThinkTime ⟨ms, ms⟩ draw = ms.val := by
    simp [sampleThinkTime, Nat.mod_one]
  have hp := @slow_pace deadline s.step (ms.val / 1000) (by positivity) h
  unfold Iteration.think
  simp only [hms, hp.1]
  exact ⟨rfl, hp.2⟩

theorem slow_http {id : String} {thinkTime : Option ThinkTime} {clock : ℚ}
    (h : ∀ s' : Strand, s'.clock = s.clock + 1 →
      Reaches ((slowIteration deadline).think thinkTime s') clock) :
    Reaches ((slowIteration deadline).executeHttp (slowStep id thinkTime) none none s) clock := by
  let request : HttpRequest := ⟨.get, "http://localhost/", ∅, none, none⟩
  let exchange : Exchange := ⟨1, 0, 0, .ok ⟨200, [], [], 0, .ok []⟩⟩
  have hrender (ctx : TemplateContext) : render "http://localhost/" ctx = .ok "http://localhost/" :=
    render_plain (by simp)
  have hbuild (ctx : TemplateContext) :
      buildRequest slowLibraries ctx (slowStep id thinkTime) = .ok request := by
    simp only [buildRequest, slowStep, hrender]
    rfl
  have hstep (s : Strand) : (slowIteration deadline).executeStep (slowStep id thinkTime) none s =
      .ok (request, respond slowLibraries (slowStep id thinkTime) false exchange, 1 + 0) :=
    Guard.bind_eq_ok.mpr ⟨request, hbuild _, rfl⟩
  unfold Iteration.executeHttp
  simp only
  split
  case h_1 e he => cases he.symm.trans (hstep _)
  case h_2 he =>
    cases he.symm.trans (hstep _)
    have hor : (slowStep id thinkTime).thinkTime.or none = thinkTime := Option.or_none
    rw [hor]
    exact Reaches.next ⟨rfl, rfl⟩ fun s' hs' => h s' (hs'.trans (by rw [add_zero]; rfl))

theorem slow_steps (ids : List String) {ms : U32}
    (h : s.clock + ids.length + 1 + ms.val / 1000 < deadline) :
    Reaches ((slowIteration deadline).executeSteps (slowSteps ids ms) none none s)
      (s.clock + ids.length + 1 + ms.val / 1000) := by
  have hms : (0 : ℚ) ≤ ms.val / 1000 := by positivity
  induction ids generalizing s
  case nil =>
    rw [List.length_nil, Nat.cast_zero, add_zero] at h ⊢
    refine Reaches.guarded (by linarith) fun s' hs' => ?_
    refine Reaches.next (slow_http fun s'' hs'' => ?_) fun s'' hs'' => ⟨rfl, hs''⟩
    rw [hs'] at hs''
    rw [← hs''] at h ⊢
    exact slow_think h
  case cons id ids ih =>
    rw [List.length_cons, Nat.cast_succ] at h ⊢
    have hids : (0 : ℚ) ≤ ids.length := Nat.cast_nonneg _
    refine Reaches.guarded (by linarith) fun s' hs' => ?_
    refine Reaches.next (slow_http fun s'' hs'' => ⟨rfl, hs''⟩) fun s'' hs'' => ?_
    have he : s.clock + (ids.length + 1) + 1 + ms.val / 1000 =
        s''.clock + ids.length + 1 + ms.val / 1000 := by
      rw [hs'', hs']
      ring
    rw [he] at h ⊢
    exact ih h

end

theorem slow_takes (n : ℕ) (ms : U32) :
    ∃ (it : Iteration) (rows : List (Table String String)), Timely it ∧ it.client.timeout = (1 : ℕ) ∧
      (it.runIteration (slowScenario n ms) rows 0).strand.clock = n + 1 + ms.val / 1000 := by
  refine ⟨slowIteration (n + 2 + ms.val / 1000), [], slow_timely _, by simp [slowIteration], ?_⟩
  have hc := Within.start_clock (slowIteration (n + 2 + ms.val / 1000)) (slowScenario n ms) [] 0
  have hr := @slow_steps (n + 2 + ms.val / 1000)
    ((slowIteration (n + 2 + ms.val / 1000)).start (slowScenario n ms) [] 0)
    ((List.range n).map toString) ms (by simp [hc])
  have hr := hr.clock
  rw [hc, List.length_map, List.length_range, zero_add] at hr
  exact hr

end Ui
