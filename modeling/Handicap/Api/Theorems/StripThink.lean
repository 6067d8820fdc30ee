import Handicap.Api.StripThink
import Handicap.Engine.Theorems.YamlText

open Store

namespace Engine

mutual

-- A change of the HTTP steps at any depth.
def Step.mapHttp (f : HttpStep → HttpStep) : Step → Step
  | .http step                                     => .http (f step)
  | .loop id name repeats body                     => .loop id name repeats (mapHttpSteps f body)
  | .ifStep id name cond thenSteps elifs elseSteps =>
    .ifStep id name cond (mapHttpSteps f thenSteps) (mapHttpElifs f elifs)
      (mapHttpSteps f elseSteps)
  | .parallel id name branches                     => .parallel id name (mapHttpBranches f branches)

def mapHttpSteps (f : HttpStep → HttpStep) : List Step → List Step
  | []            => []
  | step :: steps => step.mapHttp f :: mapHttpSteps f steps

def mapHttpElifs (f : HttpStep → HttpStep) : List (Condition × List Step) →
    List (Condition × List Step)
  | []                     => []
  | (cond, steps) :: elifs => (cond, mapHttpSteps f steps) :: mapHttpElifs f elifs

def mapHttpBranches (f : HttpStep → HttpStep) : List (String × List Step) →
    List (String × List Step)
  | []                        => []
  | (name, steps) :: branches => (name, mapHttpSteps f steps) :: mapHttpBranches f branches

end

def HttpStep.withoutThink (step : HttpStep) : HttpStep :=
  { step with thinkTime := none }

-- The scenario that differs in its think times only, of which it has none.
def Scenario.withoutThink (s : Scenario) : Scenario :=
  { s with defaultThinkTime := none, steps := mapHttpSteps HttpStep.withoutThink s.steps }

section

variable {f : HttpStep → HttpStep}

theorem mapHttpSteps_eq (l : List Step) : mapHttpSteps f l = l.map (Step.mapHttp f) := by
  induction l
  case nil            => rfl
  case cons step l ih => rw [mapHttpSteps, ih, List.map_cons]

theorem mapHttpElifs_eq (l : List (Condition × List Step)) :
    mapHttpElifs f l = l.map fun e => (e.1, mapHttpSteps f e.2) := by
  induction l
  case nil         => rfl
  case cons e l ih => rw [mapHttpElifs, ih, List.map_cons]

theorem mapHttpBranches_eq (l : List (String × List Step)) :
    mapHttpBranches f l = l.map fun b => (b.1, mapHttpSteps f b.2) := by
  induction l
  case nil         => rfl
  case cons b l ih => rw [mapHttpBranches, ih, List.map_cons]

theorem mapHttp_canonical (hf : ∀ step : HttpStep, step.Canonical → (f step).Canonical)
    {step : Step} (h : step.Canonical) : (step.mapHttp f).Canonical := by
  have list {l : List Step} (h : ∀ step ∈ l, (step.mapHttp f).Canonical) :
      ∀ step ∈ mapHttpSteps f l, step.Canonical := by
    rw [mapHttpSteps_eq]
    exact List.forall_mem_map.mpr h
  induction h
  case http step h => exact .http (hf step h)
  case loop hr _ ih => exact .loop hr (list ih)
  case ifStep _ _ _ iht ihe ihs =>
    refine .ifStep (list iht) ?_ (list ihs)
    rw [mapHttpElifs_eq]
    exact List.forall_mem_map.mpr fun e he => list (ihe e he)
  case parallel _ ih =>
    refine .parallel ?_
    rw [mapHttpBranches_eq]
    exact List.forall_mem_map.mpr fun b hb => list (ih b hb)

theorem HttpStep.withoutThink_canonical (step : HttpStep) (h : step.Canonical) :
    step.withoutThink.Canonical :=
  ⟨h.request, h.assertions, h.timeoutSeconds⟩

theorem withoutThink_canonical {lib : DeclLib} {s : Scenario} (h : s.Canonical lib) :
    s.withoutThink.Canonical lib where
  version := h.version
  ordered := h.ordered
  decls   := h.decls
  steps   := by
    change ∀ step ∈ mapHttpSteps HttpStep.withoutThink s.steps, _
    rw [mapHttpSteps_eq]
    exact List.forall_mem_map.mpr fun step hm =>
      mapHttp_canonical HttpStep.withoutThink_canonical (h.steps step hm)

end

end Engine

open Engine

namespace Api

-- What is stripped has no think times, and is what it was unless it has changed.
def Strips {α : Type} (r : α × Bool) (a a' : α) : Prop :=
  r.1 = a' ∧ (r.2 = false → a' = a)

mutual

theorem stripStep_strips : (step : Step) →
    Strips (stripStepThink step) step (step.mapHttp HttpStep.withoutThink)
  | .http step                                     => by
    refine ⟨rfl, fun h => ?_⟩
    have hs : step.thinkTime.isSome = false := h
    have ht : step.thinkTime = none := by simpa using hs
    rw [Step.mapHttp, HttpStep.withoutThink, ← ht]
  | .loop id name repeats body                     => by
    obtain ⟨h, hn⟩ := stripSteps_strips body
    refine ⟨?_, fun hc => ?_⟩
    case refine_1 => simp only [stripStepThink, Step.mapHttp, h]
    case refine_2 => rw [Step.mapHttp, hn hc]
  | .ifStep id name cond thenSteps elifs elseSteps => by
    obtain ⟨ht, htn⟩ := stripSteps_strips thenSteps
    obtain ⟨he, hen⟩ := stripElifs_strips elifs
    obtain ⟨hs, hsn⟩ := stripSteps_strips elseSteps
    refine ⟨?_, fun hc => ?_⟩
    case refine_1 => simp only [stripStepThink, Step.mapHttp, ht, he, hs]
    case refine_2 =>
      obtain ⟨hc, hcs⟩ := Bool.or_eq_false_iff.mp hc
      obtain ⟨hct, hce⟩ := Bool.or_eq_false_iff.mp hc
      rw [Step.mapHttp, htn hct, hen hce, hsn hcs]
  | .parallel id name branches                     => by
    obtain ⟨h, hn⟩ := stripBranches_strips branches
    refine ⟨?_, fun hc => ?_⟩
    case refine_1 => simp only [stripStepThink, Step.mapHttp, h]
    case refine_2 => rw [Step.mapHttp, hn hc]

theorem stripSteps_strips : (steps : List Step) →
    Strips (stripStepsThink steps) steps (mapHttpSteps HttpStep.withoutThink steps)
  | []            => ⟨rfl, fun _ => rfl⟩
  | step :: steps => by
    obtain ⟨h, hn⟩ := stripStep_strips step
    obtain ⟨hs, hsn⟩ := stripSteps_strips steps
    refine ⟨?_, fun hc => ?_⟩
    case refine_1 => simp only [stripStepsThink, mapHttpSteps, h, hs]
    case refine_2 =>
      obtain ⟨hc, hcs⟩ := Bool.or_eq_false_iff.mp hc
      rw [mapHttpSteps, hn hc, hsn hcs]

theorem stripElifs_strips : (elifs : List (Condition × List Step)) →
    Strips (stripElifsThink elifs) elifs (mapHttpElifs HttpStep.withoutThink elifs)
  | []                     => ⟨rfl, fun _ => rfl⟩
  | (cond, steps) :: elifs => by
    obtain ⟨h, hn⟩ := stripSteps_strips steps
    obtain ⟨hs, hsn⟩ := stripElifs_strips elifs
    refine ⟨?_, fun hc => ?_⟩
    case refine_1 => simp only [stripElifsThink, mapHttpElifs, h, hs]
    case refine_2 =>
      obtain ⟨hc, hcs⟩ := Bool.or_eq_false_iff.mp hc
      rw [mapHttpElifs, hn hc, hsn hcs]

theorem stripBranches_strips : (branches : List (String × List Step)) →
    Strips (stripBranchesThink branches) branches (mapHttpBranches HttpStep.withoutThink branches)
  | []                        => ⟨rfl, fun _ => rfl⟩
  | (name, steps) :: branches => by
    obtain ⟨h, hn⟩ := stripSteps_strips steps
    obtain ⟨hs, hsn⟩ := stripBranches_strips branches
    refine ⟨?_, fun hc => ?_⟩
    case refine_1 => simp only [stripBranchesThink, mapHttpBranches, h, hs]
    case refine_2 =>
      obtain ⟨hc, hcs⟩ := Bool.or_eq_false_iff.mp hc
      rw [mapHttpBranches, hn hc, hsn hcs]

end

theorem stripScenario_strips (s : Scenario) : Strips (stripScenarioThink s) s s.withoutThink := by
  obtain ⟨h, hn⟩ := stripSteps_strips s.steps
  refine ⟨?_, fun hc => ?_⟩
  case refine_1 => simp only [stripScenarioThink, Scenario.withoutThink, h]
  case refine_2 =>
    obtain ⟨ht, hs⟩ := Bool.or_eq_false_iff.mp hc
    have ht : s.defaultThinkTime = none := by simpa using ht
    rw [Scenario.withoutThink, hn hs, ← ht]

-- A scenario is written as a text that it is read from, and a run that ignores think times is sent
-- a text that differs in these only.
theorem maybeStripThink_withoutThink {yaml : YamlText} (hy : yaml.Lossless) {lib : DeclLib}
    {text : String} {s : Scenario} (h : fromYaml yaml lib text = .ok s) :
    (∃ out, s.toYaml yaml = .ok out ∧ fromYaml yaml lib out = .ok s) ∧
      ∀ profile : Profile, profile.isOpenLoop → ¬profile.applyScenarioThinkTime →
        fromYaml yaml lib (maybeStripThink yaml lib text profile) = .ok s.withoutThink := by
  have hc := fromYaml_canonical h
  refine ⟨toYaml_of_canonical hy hc, fun profile ho ha => ?_⟩
  obtain ⟨hs, hn⟩ := stripScenario_strips s
  obtain ⟨out, hout, hr⟩ := toYaml_of_canonical hy (withoutThink_canonical hc)
  unfold maybeStripThink
  rw [ho, Bool.eq_false_of_not_eq_true ha, h]
  simp only [hs, hout, Except.toOption, Option.getD_some, Bool.not_false, Bool.and_true,
    Bool.not_true, Bool.false_eq_true, if_false]
  split
  case isTrue      => exact hr
  case isFalse hch => rw [hn (Bool.eq_false_of_not_eq_true hch), h]

-- A loop with a think time, a generator, and a default.
def thoughtful : Scenario where
  version          := 1
  name             := "checkout"
  varDecls         := [("id", .gen .uuid .request), ("user", .static "7")]
  cookieJar        := true
  defaultThinkTime := some ⟨100, 200⟩
  notes            := none
  steps            :=
    [.loop "l1" "again" 2 [.http
      { id := "h1", name := "open"
        request := { method := .get, url := "/", headers := [], body := none, disabled := ⟨[], []⟩ }
        assertions := [.status 200], extract := [.body "token" "$.t" (some .jwt) (some "sub")]
        timeoutSeconds := none, thinkTime := some ⟨5, 5⟩ }]]

def versionText : String :=
  "version: 1\n"

def variablesText : String :=
  "name: checkout
variables:
  id:
    gen: uuid
    refresh: request
  user: '7'
cookie_jar: auto
"

def defaultText : String :=
  "default_think_time:
  min_ms: 100
  max_ms: 200
"

def stepsText : String :=
  "steps:
- type: loop
  id: l1
  name: again
  repeat: 2
  do:
  - type: http
    id: h1
    name: open
    request:
      method: GET
      url: /
      headers: \x7b\x7d
      body: null
    assert:
    - status: 200
    extract:
    - from: body
      var: token
      path: $.t
      decode: jwt
      claim: sub
"

def thinkText : String :=
  "    think_time:
      min_ms: 5
      max_ms: 5
"

def thoughtfulText : String :=
  versionText ++ variablesText ++ defaultText ++ stepsText ++ thinkText

def hastyText : String :=
  versionText ++ variablesText ++ stepsText

def checkoutTable : List (String × Yaml) :=
  [(thoughtfulText, thoughtful.serialize), (hastyText, thoughtful.withoutThink.serialize)]

def checkoutTexts : YamlText :=
  .ofTable checkoutTable

theorem checkoutTable_nodup : (checkoutTable.map Prod.fst).Nodup := by
  have hne : thoughtfulText ≠ hastyText := by
    intro h
    have hl := congrArg String.length h
    have hd : thinkText.length ≠ 0 := by simp [thinkText]
    simp only [thoughtfulText, hastyText, String.length_append] at hl
    omega
  simp [checkoutTable, hne]

theorem checkoutTexts_lossless : checkoutTexts.Lossless := by
  have hv : 'v' ∈ versionText.toList := by simp [versionText]
  refine YamlText.ofTable_lossless checkoutTable_nodup ?_
  simp only [checkoutTable, List.map_cons, List.map_nil, List.forall_mem_cons]
  refine ⟨⟨'v', ?_, by decide⟩, ⟨'v', ?_, by decide⟩, List.forall_mem_nil _⟩
  case refine_1 => simp [thoughtfulText, hv]
  case refine_2 => simp [hastyText, hv]

theorem thoughtful_canonical : thoughtful.Canonical allDates where
  version := by decide
  ordered := List.pairwise_pair.mpr (by decide +kernel)
  decls   := by simp [thoughtful, GenSpec.Valid]
  steps   := by
    refine List.forall_mem_singleton.mpr (.loop (by decide) (List.forall_mem_singleton.mpr ?_))
    exact .http ⟨⟨.nil, by simp, .nil, .nil⟩, by simp, by simp⟩

theorem thoughtful_read : fromYaml checkoutTexts allDates thoughtfulText = .ok thoughtful := by
  have hm : (thoughtfulText, thoughtful.serialize) ∈ checkoutTable := List.mem_cons_self ..
  have hp := YamlText.ofTable_parse checkoutTable_nodup hm
  rw [fromYaml, checkoutTexts, hp, Except.mapError, ok_bind]
  exact (reads_scenario thoughtful_canonical).read

def ignoringThink : Profile where
  vus                     := 0
  rampUpSeconds           := 0
  durationSeconds         := 10
  loopBreakdownCap        := 0
  httpTimeoutSeconds      := 30
  dataBinding             := none
  dataBindings            := []
  criteria                := none
  thinkTime               := none
  thinkSeed               := none
  targetRps               := some 7
  maxInFlight             := some 5
  stages                  := none
  measurePhases           := false
  vuStages                := none
  rampDown                := none
  gracefulRampDownSeconds := none
  connectTimeoutSeconds   := none
  workerCount             := none
  applyScenarioThinkTime  := false

theorem maybeStripThink_withoutThink_thoughtful :
    fromYaml checkoutTexts allDates thoughtfulText = .ok thoughtful ∧
      (∃ out, thoughtful.toYaml checkoutTexts = .ok out ∧
        fromYaml checkoutTexts allDates out = .ok thoughtful) ∧
      fromYaml checkoutTexts allDates
        (maybeStripThink checkoutTexts allDates thoughtfulText ignoringThink) =
          .ok thoughtful.withoutThink :=
  have h := maybeStripThink_withoutThink checkoutTexts_lossless thoughtful_read
  ⟨thoughtful_read, h.left, h.right ignoringThink rfl (by decide)⟩

end Api
