import Handicap.Engine.Theorems.Executor
import Handicap.Monitor.Theorems.Config
import Handicap.Monitor.Theorems.StepJudge

open Engine (LeafEval BranchEval eqIgnoreAsciiCase)

-- What is judged of a trace does not depend on its secrets, which are the values of authentication
-- headers, those of the environment, and those of the variables that are extracted from
-- authentication headers and cookies.
namespace Monitor

-- All that may be told of a secret is whether it is empty.
def hidden (v : String) : String :=
  if v = "" then "" else .ofList mask

def isAuthKey (name : String) : Bool :=
  authHeaders.any fun h => eqIgnoreAsciiCase name.toList h.toList

def hideHeader (name value : String) : String :=
  if isAuthKey name then hidden value else value

def hideResponse (resp : TracedResponse) : TracedResponse :=
  { resp with headers := resp.headers.mapValues hideHeader, setCookies := [] }

variable (vars : List String)

def hideLeaf (l : LeafEval) : LeafEval :=
  let secret := Engine.contains ['$', '{'] l.left.toList || refsAny l.left vars
  { l with
    leftValue  := l.leftValue.map fun v => if secret then hidden v else v
    rightValue := none }

def hideEval (e : BranchEval) : BranchEval :=
  { e with leaf := e.leaf.map (hideLeaf vars) }

def hideRow (row : StepTrace) : StepTrace :=
  { row with
    request    := none
    response   := row.response.map hideResponse
    extracted  := ∅
    branchEval := row.branchEval.map (hideEval vars) }

-- A trace without its secrets, and without the requests and the values of its variables.
def hide (trace : ScenarioTrace) : ScenarioTrace :=
  { trace with steps := trace.steps.map (hideRow vars), finalVars := ∅ }

-- No item that a panel displays is an authentication header.
def PanelConfig.Discreet (p : PanelConfig) : Prop :=
  ∀ d ∈ p.displayItems, d.source = .header → ¬isAuthKey (trim d.path)

variable {vars} {lib : Engine.Libraries} {toLower : String → String} {scenario : Engine.Scenario}
  {trace trace' : ScenarioTrace} {atMs : ℤ} {panels : List PanelConfig} {flowCapSecs : ℕ}
  {stepLimits : Table String ℕ} {p : PanelConfig} {row row' : StepTrace} {id cid : String}
  {resp resp' : TracedResponse} {c : Condition} {out : List (Option CheckResult)} {i : ℕ}

theorem hidden_eq_empty {v : String} : hidden v = "" ↔ v = "" := by
  unfold hidden
  split
  case isTrue h  => simp [h]
  case isFalse h => simp [h, mask]

theorem eqIgnoreAsciiCase_congr {s t u : List Char} (h : eqIgnoreAsciiCase s t) :
    eqIgnoreAsciiCase s u = eqIgnoreAsciiCase t u := by
  simp_all [eqIgnoreAsciiCase]

theorem isAuthKey_congr {s t : String} (h : eqIgnoreAsciiCase s.toList t.toList) :
    isAuthKey s = isAuthKey t := by
  simp only [isAuthKey, eqIgnoreAsciiCase_congr h]

theorem isAuthHeader_eq (name : String) : isAuthHeader name = isAuthKey (trim name) :=
  rfl

theorem findHeader_hide (headers : Table String String) (name : String) :
    findHeader (headers.mapValues hideHeader) name =
      (findHeader headers name).map fun v => if isAuthKey name then hidden v else v := by
  have hl : (headers.mapValues hideHeader).toList =
      headers.toList.map fun h => (h.1, hideHeader h.1 h.2) := by
    simp [Table.toList, Table.mapValues, Function.comp_def]
  rw [findHeader, hl, List.find?_map, findHeader, Option.map_map, Option.map_map]
  apply Option.map_congr
  intro h hm
  have hk := List.find?_some hm
  simp only [Function.comp_apply, hideHeader, isAuthKey_congr hk]

-- Rows

@[simp]
theorem stepId_hideRow : (hideRow vars row).stepId = row.stepId :=
  rfl

theorem lastRow_hide : lastRow (hide vars trace) id = (lastRow trace id).map (hideRow vars) := by
  simp only [lastRow, hide, ← List.map_reverse, List.find?_map]
  rfl

theorem lastDecision_hide :
    lastDecision (hide vars trace) id =
      (lastDecision trace id).map fun d => (d.1, hideRow vars d.2) := by
  simp only [lastDecision, hide, List.zipIdx_map, ← List.map_reverse, List.find?_map, Option.map_map]
  rfl

theorem exclusionRow_hide (chain : List Anc) :
    exclusionRow (hide vars trace) chain =
      (exclusionRow trace chain).map fun e => (e.1, hideRow vars e.2.1, e.2.2) := by
  induction chain
  case nil => rfl
  case cons a chain ih =>
    cases a
    case par => exact ih
    case ifStep id name label =>
      simp only [exclusionRow, lastDecision_hide]
      cases lastDecision trace id
      case none => rfl
      case some d =>
        obtain ⟨k, row⟩ := d
        simp only [Option.map_some, Option.bind_eq_bind, Option.bind_some, ih]
        change (if row.branch = some label then _ else _) = Option.map _ (if _ then _ else _)
        split <;> rfl

theorem sectionEnd_hide : sectionEnd scenario (hide vars trace) id = sectionEnd scenario trace id := by
  have hf : (hide vars trace).steps.findIdx? (isRowOf id) = trace.steps.findIdx? (isRowOf id) := by
    rw [hide, List.findIdx?_map]
    rfl
  have hl : (hide vars trace).steps.length = trace.steps.length := List.length_map _
  simp only [sectionEnd, hf, hl, exclusionRow_hide, Option.map_map]
  rfl

theorem frontEnd_hide : frontEnd scenario (hide vars trace) p = frontEnd scenario trace p := by
  rw [frontEnd, sectionEnd_hide, frontEnd]

theorem panelOrder_hide :
    panelOrder scenario (hide vars trace) panels = panelOrder scenario trace panels := by
  simp only [panelOrder, frontEnd_hide]

theorem preOf_hide : preOf scenario (hide vars trace) p = preOf scenario trace p := by
  have hf (n : ℕ) : ((hide vars trace).steps.take n).findIdx? (blocks scenario p.sid) =
      (trace.steps.take n).findIdx? (blocks scenario p.sid) := by
    rw [hide, ← List.map_take, List.findIdx?_map]
    rfl
  simp only [preOf, sectionEnd_hide, hf]

theorem classify_hide (http) (err : String) :
    classify http (hideRow vars row) err = classify http row err := by
  have hr : (hideRow vars row).response = row.response.map hideResponse := rfl
  rw [classify, classify, hr]
  cases row.response <;> rfl

theorem errorVerdict_hide (http) (err : String) (limit : ℕ) :
    errorVerdict http (hideRow vars row) err limit = errorVerdict http row err limit := by
  rw [errorVerdict, classify_hide]
  rfl

theorem blocking_hide (evals : List BranchEval) (label : String) :
    blocking (evals.map (hideEval vars)) label = (blocking evals label).map (hideEval vars) := by
  have h₁ : (fun e : BranchEval => e.branch = label && !e.passed) ∘ hideEval vars =
      fun e => e.branch = label && !e.passed := rfl
  have h₂ : BranchEval.passed ∘ hideEval vars = BranchEval.passed := rfl
  rw [blocking, List.find?_map, List.find?_map, h₁, h₂, blocking]
  cases evals.find? fun e => e.branch = label && !e.passed with rfl

theorem leafValue_hide (l : LeafEval) : leafValue (hideLeaf vars l) vars = leafValue l vars := by
  have hl : (hideLeaf vars l).left = l.left := rfl
  have ho : (hideLeaf vars l).op = l.op := rfl
  unfold leafValue
  rw [hl, ho]
  cases hv : l.leftValue
  case none => simp [hideLeaf, hv]
  case some v =>
    cases hc : Engine.contains ['$', '{'] l.left.toList
    case true => simp [hideLeaf, hv, hc]
    case false =>
      cases hr : refsAny l.left vars
      case true  => simp [hideLeaf, hv, hc, hr, hidden_eq_empty]
      case false => simp [hideLeaf, hv, hc, hr]

theorem branchResult_hide (id name label : String) :
    branchResult atMs (hideRow vars row) id name label vars =
      branchResult atMs row id name label vars := by
  have he : (hideRow vars row).branchEval = row.branchEval.map (hideEval vars) := rfl
  simp only [branchResult, he, blocking_hide]
  cases blocking row.branchEval label
  case none => rfl
  case some e =>
    have hl : (hideEval vars e).leaf = e.leaf.map (hideLeaf vars) := rfl
    simp only [Option.map_some, hl]
    cases e.leaf
    case none   => rfl
    case some l =>
      simp only [Option.map_some, leafValue_hide]
      rfl

theorem cutReason_hide (secs : ℕ) : cutReason (hide vars trace) secs = cutReason trace secs := by
  simp only [cutReason, hide, List.filter_map, List.length_map]
  rfl

theorem displayValues_hide (h : p.Discreet) :
    displayValues lib p (hide vars trace) = displayValues lib p trace := by
  refine List.map_congr_left fun d hd => ?_
  simp only [displayValue, lastRow_hide]
  cases lastRow trace d.stepId
  case none => rfl
  case some row =>
    cases hr : row.response
    case none      => simp [hideRow, hr]
    case some resp =>
      cases hs : d.source
      case header =>
        have hn := h d hd hs
        simp [hideRow, hr, hideResponse, findHeader_hide, hn]
      all_goals simp [hideRow, hr, hideResponse]

theorem response_hide : (lastRow (hide vars trace) id).bind StepTrace.response =
    ((lastRow trace id).bind StepTrace.response).map hideResponse := by
  rw [lastRow_hide]
  cases lastRow trace id with rfl

theorem findHeader_congr (h : hideResponse resp = hideResponse resp') (name : String) :
    (findHeader resp.headers name).map (fun v => if isAuthKey name then hidden v else v) =
      (findHeader resp'.headers name).map fun v => if isAuthKey name then hidden v else v := by
  have hh : resp.headers.mapValues hideHeader = resp'.headers.mapValues hideHeader :=
    congrArg TracedResponse.headers h
  rw [← findHeader_hide, ← findHeader_hide, hh]

theorem actualValue_congr (h : hideResponse resp = hideResponse resp')
    (hs : ¬(c.source = .header ∧ isAuthHeader c.path)) :
    actualValue lib c resp = actualValue lib c resp' := by
  have hb : resp.body = resp'.body := congrArg (·.body) h
  have ht : resp.bodyTruncated = resp'.bodyTruncated := congrArg (·.bodyTruncated) h
  have hst : resp.status = resp'.status := congrArg (·.status) h
  unfold actualValue
  rw [hb, ht, hst]
  cases hc : c.source
  case header =>
    have hn : isAuthKey (trim c.path) = false := Bool.eq_false_of_not_eq_true fun hk => hs ⟨hc, hk⟩
    have hf : findHeader resp.headers (trim c.path) = findHeader resp'.headers (trim c.path) := by
      simpa [hn] using findHeader_congr h (trim c.path)
    simp only [hf]
  all_goals rfl

theorem evalCondition_auth (hr : (lastRow trace c.stepId).bind StepTrace.response = some resp)
    (hs : c.source = .header) (ha : isAuthHeader c.path) :
    evalCondition lib toLower trace c = (findHeader resp.headers (trim c.path)).elim
      (some reasonNoValue) fun v =>
        if opPasses toLower c v none false then none
        else if v = "" then some reasonEmpty else some reasonValueDiffers := by
  simp only [evalCondition, hr, actualValue, hs]
  cases findHeader resp.headers (trim c.path)
  case none   => rfl
  case some v => simp [ha]

-- Where traces differ in their secrets only, a condition yields the same on both of them, if it
-- passes on both or fails on both where it is about a secret.
theorem evalCondition_congr (h : hide vars trace = hide vars trace')
    (hp : c.source = .header → isAuthHeader c.path →
      (evalCondition lib toLower trace c).isSome = (evalCondition lib toLower trace' c).isSome) :
    evalCondition lib toLower trace c = evalCondition lib toLower trace' c := by
  have hr : ((lastRow trace c.stepId).bind StepTrace.response).map hideResponse =
      ((lastRow trace' c.stepId).bind StepTrace.response).map hideResponse := by
    have := congrArg (fun t => (lastRow t c.stepId).bind StepTrace.response) h
    simpa only [response_hide] using this
  cases h₁ : (lastRow trace c.stepId).bind StepTrace.response
  all_goals
    cases h₂ : (lastRow trace' c.stepId).bind StepTrace.response
    all_goals rw [h₁, h₂] at hr
  case none.none => simp only [evalCondition, h₁, h₂]
  case none.some => cases hr
  case some.none => cases hr
  case some.some resp resp' =>
    have hr : hideResponse resp = hideResponse resp' := Option.some.inj hr
    by_cases hs : c.source = .header ∧ isAuthHeader c.path
    case neg => simp only [evalCondition, h₁, h₂, actualValue_congr hr hs]
    case pos =>
      -- Whether the value is empty and whether it passes are all that can be told of it.
      have hf := findHeader_congr hr (trim c.path)
      have hp := hp hs.left hs.right
      simp only [← isAuthHeader_eq, hs.right, if_true] at hf
      rw [evalCondition_auth h₁ hs.left hs.right, evalCondition_auth h₂ hs.left hs.right] at hp ⊢
      cases hv : findHeader resp.headers (trim c.path)
      all_goals
        cases hv' : findHeader resp'.headers (trim c.path)
        all_goals rw [hv, hv'] at hf hp
      case none.some => cases hf
      case some.none => cases hf
      case some.some v v' =>
        have hv : hidden v = hidden v' := Option.some.inj hf
        have he : v = "" ↔ v' = "" := by rw [← hidden_eq_empty, hv, hidden_eq_empty]
        simp only [Option.elim_some, he] at hp ⊢
        by_cases h₁ : opPasses toLower c v none false
        all_goals
          by_cases h₂ : opPasses toLower c v' none false
          all_goals simp only [h₁, h₂, if_true] at hp ⊢
        all_goals
          by_cases hn : v' = ""
          all_goals simp [hn] at hp

theorem findSome?_congr {α β : Type*} {f g : α → Option β} {l : List α} (h : ∀ a ∈ l, f a = g a) :
    l.findSome? f = l.findSome? g := by
  induction l
  case nil => rfl
  case cons a l ih =>
    rw [List.findSome?_cons, List.findSome?_cons, h a List.mem_cons_self,
      ih fun b hb => h b (List.mem_cons_of_mem a hb)]

-- Whether the conditions of a panel that are about secrets pass on both traces, or fail on both.
def Alike (lib : Engine.Libraries) (toLower : String → String) (trace trace' : ScenarioTrace)
    (p : PanelConfig) : Prop :=
  ∀ c ∈ p.conditions, c.source = .header → isAuthHeader c.path →
    (evalCondition lib toLower trace c).isSome = (evalCondition lib toLower trace' c).isSome

theorem evalConditions_congr (h : hide vars trace = hide vars trace')
    (ha : Alike lib toLower trace trace' p) (all) :
    evalConditions lib toLower all p trace atMs = evalConditions lib toLower all p trace' atMs := by
  refine findSome?_congr fun c hc => ?_
  rw [evalCondition_congr h (ha c hc)]

theorem eq_of_hide {α : Type*} {f : ScenarioTrace → α} (hf : ∀ t, f (hide vars t) = f t)
    (h : hide vars trace = hide vars trace') : f trace = f trace' := by
  rw [← hf, h, hf]

theorem causeRow_hide :
    causeRow scenario (hide vars trace) p = (causeRow scenario trace p).map (hideRow vars) := by
  rw [causeRow, causeRow, preOf_hide]
  cases preOf scenario trace p
  case cause i => exact List.getElem?_map
  all_goals rfl

theorem isFirstBlocked_hide : isFirstBlocked scenario (hide vars trace) panels cid i =
    isFirstBlocked scenario trace panels cid i := by
  simp only [isFirstBlocked, causeRow_hide, Option.any_map]
  rfl

theorem errorVerdict_congr (h : hideRow vars row = hideRow vars row') (http) (err : String)
    (limit : ℕ) : errorVerdict http row err limit = errorVerdict http row' err limit := by
  have hr : errorVerdict http (hideRow vars row) err limit = errorVerdict http row err limit :=
    errorVerdict_hide http err limit
  rw [← hr, h, errorVerdict_hide]

theorem latency_congr (h : hideRow vars row = hideRow vars row') :
    row.response.map TracedResponse.latencyMs = row'.response.map TracedResponse.latencyMs := by
  have hl := congrArg (fun r => r.response.map TracedResponse.latencyMs) h
  simp only [hideRow, Option.map_map] at hl
  exact hl

theorem ownResult_congr
    (h : hide (authVarNames scenario.steps) trace = hide (authVarNames scenario.steps) trace')
    (ha : Alike lib toLower trace trace' p) (cap limit : ℕ) :
    ownResult lib toLower scenario trace atMs p cap limit =
      ownResult lib toLower scenario trace' atMs p cap limit := by
  have hr : (lastRow trace p.sid).map (hideRow _) = (lastRow trace' p.sid).map (hideRow _) :=
    lastRow_hide.symm.trans ((congrArg (lastRow · p.sid) h).trans lastRow_hide)
  have hx : (exclusionRow trace (chainOf scenario p.sid)).map _ =
      (exclusionRow trace' (chainOf scenario p.sid)).map _ :=
    (exclusionRow_hide _).symm.trans ((congrArg (exclusionRow · _) h).trans (exclusionRow_hide _))
  have ht : trace.truncated = trace'.truncated := congrArg (·.truncated) h
  have hc : cutReason trace cap = cutReason trace' cap :=
    eq_of_hide (f := (cutReason · cap)) (fun _ => cutReason_hide cap) h
  unfold ownResult
  dsimp only
  cases h₁ : lastRow trace p.sid
  all_goals
    cases h₂ : lastRow trace' p.sid
    all_goals rw [h₁, h₂] at hr
  case none.some => cases hr
  case some.none => cases hr
  case none.none =>
    cases h₃ : exclusionRow trace (chainOf scenario p.sid)
    all_goals
      cases h₄ : exclusionRow trace' (chainOf scenario p.sid)
      all_goals rw [h₃, h₄] at hx
    case none.some => cases hx
    case some.none => cases hx
    case none.none => simp only [ht, hc]
    case some.some e e' =>
      obtain ⟨k, row, id, name, label⟩ := e
      obtain ⟨k', row', id', name', label'⟩ := e'
      simp only [Option.map_some, Option.some.injEq, Prod.mk.injEq] at hx
      obtain ⟨-, hrow, rfl, rfl, rfl⟩ := hx
      exact (branchResult_hide id name label).symm.trans (hrow ▸ branchResult_hide id name label)
  case some.some row row' =>
    have hrow : hideRow _ row = hideRow _ row' := Option.some.inj hr
    have he : row.error = row'.error := congrArg (·.error) hrow
    have hv (err : String) := errorVerdict_congr hrow (findHttp scenario p.sid) err limit
    simp only [he, latency_congr hrow, hv, evalConditions_congr h ha]

theorem judgePanel_hide
    (h : hide (authVarNames scenario.steps) trace = hide (authVarNames scenario.steps) trace')
    (ha : Alike lib toLower trace trace' p) :
    judgePanel lib toLower scenario trace atMs panels flowCapSecs stepLimits i p out =
      judgePanel lib toLower scenario trace' atMs panels flowCapSecs stepLimits i p out := by
  have hp : preOf scenario trace p = preOf scenario trace' p :=
    eq_of_hide (f := (preOf scenario · p)) (fun _ => preOf_hide) h
  have hf (cid : String) : isFirstBlocked scenario trace panels cid i =
      isFirstBlocked scenario trace' panels cid i :=
    eq_of_hide (f := (isFirstBlocked scenario · panels cid i)) (fun _ => isFirstBlocked_hide) h
  have hs := congrArg ScenarioTrace.steps h
  unfold judgePanel
  rw [hp]
  cases preOf scenario trace' p
  case missing => rfl
  case own     => simp only [ownResult_congr h ha]
  case cause k =>
    have hk : (trace.steps[k]?).map (hideRow (authVarNames scenario.steps)) =
        (trace'.steps[k]?).map (hideRow (authVarNames scenario.steps)) := by
      rw [← List.getElem?_map, ← List.getElem?_map]
      exact congrArg (·[k]?) hs
    cases h₁ : trace.steps[k]?
    all_goals
      cases h₂ : trace'.steps[k]?
      all_goals rw [h₁, h₂] at hk
    case none.none => simp only [h₁, h₂, Option.bind_eq_bind, Option.bind_none]
    case none.some => cases hk
    case some.none => cases hk
    case some.some row row' =>
      have hrow : hideRow _ row = hideRow _ row' := Option.some.inj hk
      have hid : row.stepId = row'.stepId := congrArg (·.stepId) hrow
      have he : row.error = row'.error := congrArg (·.error) hrow
      have hv http (err : String) limit := errorVerdict_congr hrow http err limit
      simp only [h₁, h₂, Option.bind_eq_bind, Option.bind_some, hid, he, hv, hf]
      rw [hid]

-- What a unit shows does not depend on the secrets of its trace, apart from whether they are empty
-- and whether the conditions on them pass.
theorem judgeUnit_hides
    (h : hide (authVarNames scenario.steps) trace = hide (authVarNames scenario.steps) trace')
    (ha : ∀ p ∈ panels, Alike lib toLower trace trace' p) (hd : ∀ p ∈ panels, p.Discreet) :
    judgeUnit lib toLower scenario trace atMs panels flowCapSecs stepLimits =
      judgeUnit lib toLower scenario trace' atMs panels flowCapSecs stepLimits := by
  have he : trace.error = trace'.error := congrArg (·.error) h
  have hv {p} (hp : p ∈ panels) : displayValues lib p trace = displayValues lib p trace' :=
    eq_of_hide (f := displayValues lib p) (fun _ => displayValues_hide (hd p hp)) h
  have ho : panelOrder scenario trace panels = panelOrder scenario trace' panels :=
    eq_of_hide (f := (panelOrder scenario · panels)) (fun _ => panelOrder_hide) h
  have hj : judgePanels lib toLower scenario trace atMs panels flowCapSecs stepLimits =
      judgePanels lib toLower scenario trace' atMs panels flowCapSecs stepLimits := by
    rw [judgePanels, ho]
    refine Filling.fill_congr fun a hm => funext fun out => ?_
    exact judgePanel_hide h (ha _ (List.mem_of_getElem? (mem_panelOrder.mp hm)))
  have hz (l : List CheckResult) :
      l.zipWith (fun r p => { r with display := displayValues lib p trace }) panels =
        l.zipWith (fun r p => { r with display := displayValues lib p trace' }) panels := by
    rw [← List.map_uncurry_zip_eq_zipWith, ← List.map_uncurry_zip_eq_zipWith]
    refine List.map_congr_left fun q hq => ?_
    simp only [Function.uncurry, hv (List.of_mem_zip hq).right]
  unfold judgeUnit
  rw [he, hj]
  split
  case isTrue  => exact congrArg some (List.map_congr_left fun p hp => by simp only [hv hp])
  case isFalse => simp only [hz]

-- The first row that has failed, with its error.
def firstFailure (trace : ScenarioTrace) : Option (StepTrace × String) :=
  (trace.steps.filter (·.kind = .http)).findSome? fun s => s.error.map (s, ·)

theorem firstFailure_hide :
    firstFailure (hide vars trace) = (firstFailure trace).map fun e => (hideRow vars e.1, e.2) := by
  unfold firstFailure hide
  rw [List.filter_map, List.findSome?_map, List.map_findSome?]
  refine findSome?_congr fun row _ => ?_
  change row.error.map _ = (row.error.map _).map _
  rw [Option.map_map]
  rfl

theorem latency_hide : ((lastRow (hide vars trace) id).bind StepTrace.response).map
    TracedResponse.latencyMs = ((lastRow trace id).bind StepTrace.response).map
      TracedResponse.latencyMs := by
  rw [response_hide, Option.map_map]
  rfl

theorem judge_hides (h : hide vars trace = hide vars trace')
    (ha : Alike lib toLower trace trace' p) :
    judge lib toLower scenario p trace atMs = judge lib toLower scenario p trace' atMs := by
  have ht : trace.truncated = trace'.truncated := congrArg (·.truncated) h
  have he : trace.error = trace'.error := congrArg (·.error) h
  have hm : trace.totalMs = trace'.totalMs := congrArg (·.totalMs) h
  have hc secs : cutReason trace secs = cutReason trace' secs :=
    eq_of_hide (f := (cutReason · secs)) (fun _ => cutReason_hide secs) h
  have hl id := eq_of_hide (f := fun t => ((lastRow t id).bind StepTrace.response).map
    TracedResponse.latencyMs) (fun _ => latency_hide) h
  have hf : (firstFailure trace).map _ = (firstFailure trace').map _ :=
    firstFailure_hide.symm.trans ((congrArg firstFailure h).trans firstFailure_hide)
  unfold judge
  simp only [ht, he, hm, hc, hl, evalConditions_congr h ha]
  unfold firstFailure at hf
  cases h₁ : (trace.steps.filter (·.kind = .http)).findSome? fun s => s.error.map (s, ·)
  all_goals
    cases h₂ : (trace'.steps.filter (·.kind = .http)).findSome? fun s => s.error.map (s, ·)
    all_goals rw [h₁, h₂] at hf
  case none.some => cases hf
  case some.none => cases hf
  case some.some e e' =>
    obtain ⟨row, err⟩ := e
    obtain ⟨row', err'⟩ := e'
    simp only [Option.map_some, Option.some.injEq, Prod.mk.injEq] at hf
    obtain ⟨hrow, rfl⟩ := hf
    have hid : row.stepId = row'.stepId := congrArg (·.stepId) hrow
    have hu : row.unboundVars = row'.unboundVars := congrArg (·.unboundVars) hrow
    have hk http : classify http row err = classify http row' err := by
      have hr : classify http (hideRow vars row) err = classify http row err := classify_hide http err
      rw [← hr, hrow, classify_hide]
    simp only [hid, hu, hk]

theorem isAuthKey_iff {name : String} : isAuthKey name ↔ name.toLower ∈ authHeaders := by
  have hl : ∀ h ∈ authHeaders, h.toList.map Char.toLower = h.toList := by
    intro h hm
    simp only [authHeaders, List.mem_cons, List.not_mem_nil, or_false] at hm
    obtain rfl | rfl | rfl | rfl := hm
    all_goals decide
  have ht : name.toLower.toList = name.toList.map Char.toLower := String.toList_map
  simp only [isAuthKey, List.any_eq_true, eqIgnoreAsciiCase, decide_eq_true_eq]
  constructor
  case mp =>
    rintro ⟨h, hm, he⟩
    have : name.toLower = h := String.toList_injective (ht.trans (he.trans (hl h hm)))
    exact this ▸ hm
  case mpr =>
    intro hm
    exact ⟨_, hm, by rw [hl _ hm, ht]⟩

-- A panel that has been accepted displays no authentication header.
theorem discreet_of_validate {cfgLib : ConfigLib} {new : String} {p p' : PanelConfig}
    (h : validatePanel cfgLib new p = .ok p') : p'.Discreet := by
  obtain ⟨-, id, -, -, conditions, -, items, hd, rfl⟩ := validatePanel_eq_ok.mp h
  intro d hm hs hk
  obtain ⟨d₀, -, n, hv⟩ := Guard.each_mem (validateDisplayItems_eq_ok.mp hd).2 hm
  obtain ⟨-, path, hp, -⟩ := validateDisplayItem_eq_ok.mp (validateDisplayItem_self hv)
  rw [hs] at hp
  exact (checkDisplayPath_header_eq_ok.mp hp).2.1 (isAuthKey_iff.1 hk)

-- What is shown of a unit or a flow does not depend on the secrets of its trace, apart from whether
-- they are empty and whether the conditions on them pass.
theorem judging_hides (lib : Engine.Libraries) (toLower : String → String)
    (scenario : Engine.Scenario) (trace trace' : ScenarioTrace) (atMs : ℤ) (panels : List PanelConfig)
    (flowCapSecs : ℕ) (stepLimits : Table String ℕ)
    (h : hide (authVarNames scenario.steps) trace = hide (authVarNames scenario.steps) trace')
    (ha : ∀ p ∈ panels, Alike lib toLower trace trace' p) (hd : ∀ p ∈ panels, p.Discreet) :
    judgeUnit lib toLower scenario trace atMs panels flowCapSecs stepLimits =
        judgeUnit lib toLower scenario trace' atMs panels flowCapSecs stepLimits ∧
      ∀ p ∈ panels,
        judge lib toLower scenario p trace atMs = judge lib toLower scenario p trace' atMs ∧
        displayValues lib p trace = displayValues lib p trace' :=
  ⟨judgeUnit_hides h ha hd, fun p hp => ⟨judge_hides h (ha p hp),
    eq_of_hide (f := displayValues lib p) (fun _ => displayValues_hide (hd p hp)) h⟩⟩

-- The answer to a login, which sets a cookie.
def loggedIn (cookie : String) : ScenarioTrace where
  ok        := true
  totalMs   := 7
  steps     :=
    [{ stepId := "login", kind := .http, loopIndex := none, branch := none, request := none
       response := some
         { status := 200, latencyMs := 7, downloadMs := none
           headers := AList.insert "set-cookie" cookie ∅, setCookies := [cookie], body := ""
           bodyTruncated := false }
       extracted := AList.insert "session" cookie ∅, unboundVars := [], error := none
       branchEval := [], timedOut := false }]
  finalVars := AList.insert "session" cookie ∅
  truncated := false
  error     := none

def login : Engine.Scenario where
  version          := 1
  name             := "login"
  varDecls         := []
  cookieJar        := true
  defaultThinkTime := none
  notes            := none
  steps            :=
    [.http
      { id := "login", name := "login"
        request :=
          { method := .post, url := "/login", headers := [], body := none, disabled := ⟨[], []⟩ }
        assertions := [], extract := [.cookie "session" "id" none none]
        timeoutSeconds := none, thinkTime := none }]

def loginPanel : PanelConfig where
  stepId     := some "login"
  conditions := [⟨"login", .header, "set-cookie", .notEmpty, "", false, false⟩]

theorem judging_hides_cookie :
    judgeUnit Engine.plainLibraries String.toLower login (loggedIn "id=1") 0 [loginPanel] 60 ∅ =
        judgeUnit Engine.plainLibraries String.toLower login (loggedIn "id=2") 0 [loginPanel] 60 ∅ ∧
      ∀ p ∈ [loginPanel],
        judge Engine.plainLibraries String.toLower login p (loggedIn "id=1") 0 =
            judge Engine.plainLibraries String.toLower login p (loggedIn "id=2") 0 ∧
          displayValues Engine.plainLibraries p (loggedIn "id=1") =
            displayValues Engine.plainLibraries p (loggedIn "id=2") := by
  apply judging_hides
  case h => rfl
  case ha =>
    intro p hp c hc _ _
    obtain rfl := List.mem_singleton.mp hp
    obtain rfl := List.mem_singleton.mp hc
    rfl
  case hd =>
    intro p hp d hm
    obtain rfl := List.mem_singleton.mp hp
    cases hm

end Monitor
