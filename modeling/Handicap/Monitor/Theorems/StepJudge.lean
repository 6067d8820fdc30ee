import Handicap.Engine.Theorems.Executor
import Handicap.Monitor.StepJudge

open Filling

-- A failure of a step that keeps panels of a unit from being checked is told by one of the panels.
namespace Monitor

variable {lib : Engine.Libraries} {toLower : String → String} {scenario : Engine.Scenario}
  {trace : ScenarioTrace} {atMs : ℤ} {panels : List PanelConfig} {flowCapSecs : ℕ}
  {stepLimits : Table String ℕ} {p q : PanelConfig} {row : StepTrace} {r : CheckResult}
  {i k : ℕ} {cid : String} {out out' : List (Option CheckResult)} {results : List CheckResult}

theorem sectionEnd_le (hr : trace.steps[k]? = some row) (hid : isRowOf p.sid row) :
    sectionEnd scenario trace p.sid ≤ k := by
  have ⟨hk, hg⟩ := List.getElem?_eq_some_iff.mp hr
  cases hf : trace.steps.findIdx? (isRowOf p.sid)
  case none =>
    have := List.findIdx?_eq_none_iff.mp hf row (List.mem_of_getElem? hr)
    simp [hid] at this
  case some j =>
    obtain ⟨_, _, hmin⟩ := List.findIdx?_eq_some_iff_getElem.mp hf
    have hle : j ≤ k := by
      by_contra hlt
      exact absurd (hg ▸ hid) (hmin k (Nat.lt_of_not_le hlt))
    simpa [sectionEnd, hf] using hle

-- The panels of a step that has failed come before those that the failure blocks.
theorem frontEnd_le (hr : trace.steps[k]? = some row) (hk : row.kind = .http)
    (hq : q.stepId = some row.stepId) : frontEnd scenario trace q ≤ k := by
  unfold frontEnd
  split
  case isTrue  => exact Nat.zero_le k
  case isFalse => exact sectionEnd_le hr (by simp [isRowOf, hk, PanelConfig.sid, hq])

theorem preOf_cause (h : preOf scenario trace p = .cause k) :
    k < frontEnd scenario trace p ∧ k < sectionEnd scenario trace p.sid ∧
      ∃ row, trace.steps[k]? = some row ∧ blocks scenario p.sid row := by
  unfold preOf at h
  split at h
  case isTrue => cases h
  case isFalse hm =>
    split at h
    case h_2 => cases h
    case h_1 j hj =>
      obtain rfl := Pre.cause.inj h
      obtain ⟨hlt, hb, -⟩ := List.findIdx?_eq_some_iff_getElem.mp hj
      have ⟨hend, hlen⟩ := Nat.lt_min.mp (List.length_take ▸ hlt)
      rw [List.getElem_take] at hb
      exact ⟨by rwa [frontEnd, if_neg hm], hend, _, List.getElem?_eq_getElem hlen, hb⟩

theorem causeRow_eq_some (h : causeRow scenario trace p = some row) :
    ∃ k, preOf scenario trace p = .cause k ∧ trace.steps[k]? = some row := by
  unfold causeRow at h
  split at h
  case h_1 k hp => exact ⟨k, hp, h⟩
  case h_2      => cases h

theorem isFailure_errorVerdict (http) (row : StepTrace) (err : String) (limit : ℕ) :
    isFailure (errorVerdict http row err limit).1 := by
  unfold errorVerdict
  split
  case isTrue  => rfl
  case isFalse => split <;> rfl

theorem branchResult_verdict (id name label : String) (vars : List String) :
    (branchResult atMs row id name label vars).verdict ≠ .upstreamFailed := by
  unfold branchResult
  split
  case h_1 => simp [stepResult]
  case h_2 =>
    split
    case h_1 => simp [stepResult]
    case h_2 => split <;> simp [stepResult]

theorem evalConditions_verdict {all} (h : evalConditions lib toLower all p trace atMs = some r) :
    r.verdict = .fail := by
  obtain ⟨c, -, hc⟩ := List.exists_of_findSome?_eq_some h
  obtain ⟨reason, -, rfl⟩ := Option.map_eq_some_iff.mp hc
  rfl

-- A panel that nothing blocks does not say that it is blocked.
theorem ownResult_verdict (cap limit : ℕ) :
    (ownResult lib toLower scenario trace atMs p cap limit).verdict ≠ .upstreamFailed := by
  unfold ownResult
  dsimp only
  split
  case h_1 row hrow =>
    split
    case h_1 err he =>
      have hf := isFailure_errorVerdict (findHttp scenario p.sid) row err limit
      intro hv
      rw [show (errorVerdict (findHttp scenario p.sid) row err limit).1 = .upstreamFailed from hv]
        at hf
      cases hf
    case h_2 =>
      cases he : evalConditions lib toLower (collectHttpSteps scenario.steps) p trace atMs
      case none   => simp
      case some r => simp [evalConditions_verdict he]
  case h_2 =>
    split
    case h_1 => exact branchResult_verdict _ _ _ _
    case h_2 => simp [stepResult]

theorem judgePanel_free (hc : causeRow scenario trace p = none) :
    ∃ r, judgePanel lib toLower scenario trace atMs panels flowCapSecs stepLimits i p out = some r ∧
      r.verdict ≠ .upstreamFailed := by
  unfold judgePanel
  split
  case h_1 => exact ⟨_, rfl, by simp [stepResult]⟩
  case h_2 => exact ⟨_, rfl, ownResult_verdict _ _⟩
  case h_3 k hp =>
    obtain ⟨-, -, row, hr, -⟩ := preOf_cause hp
    rw [causeRow, hp] at hc
    cases hr.symm.trans hc

-- A panel that is blocked tells the failure itself, or that it is blocked.
theorem judgePanel_blocked (hc : causeRow scenario trace p = some row) :
    ∃ r, judgePanel lib toLower scenario trace atMs panels flowCapSecs stepLimits i p out = some r ∧
      if causeFailed panels row.stepId out = false ∧ isFirstBlocked scenario trace panels row.stepId i
      then isFailure r.verdict = true else r.verdict = .upstreamFailed := by
  obtain ⟨k, hp, hr⟩ := causeRow_eq_some hc
  simp only [judgePanel, hp, hr]
  by_cases h : causeFailed panels row.stepId out = false ∧
      isFirstBlocked scenario trace panels row.stepId i
  case pos => simpa [h, stepResult] using isFailure_errorVerdict _ _ _ _
  case neg => simp [h, stepResult]

-- The panel that tells the failure of another step is judged as that step would be.
theorem judgePanel_failed (hc : causeRow scenario trace p = some row)
    (hj : judgePanel lib toLower scenario trace atMs panels flowCapSecs stepLimits i p out = some r)
    (hf : isFailure r.verdict) :
    let failure := errorVerdict (findHttp scenario row.stepId) row (row.error.getD "")
      ((stepLimits.lookup row.stepId).getD defaultStepLimitSecs)
    let name := stepName (findHttp scenario row.stepId) row.stepId
    r = stepResult atMs failure.1 (some reasonUpstream) (some s!"{name} · {failure.2}") := by
  obtain ⟨k, hp, hr⟩ := causeRow_eq_some hc
  simp only [judgePanel, hp, hr, Option.bind_eq_bind, Option.bind_some] at hj
  split at hj
  case isTrue  => exact (Option.some.inj hj).symm
  case isFalse =>
    obtain rfl := Option.some.inj hj
    cases hf

theorem causeFailed_iff : causeFailed panels cid out ↔
    ∃ (k : ℕ) (q : PanelConfig) (r : CheckResult), panels[k]? = some q ∧ out[k]? = some (some r) ∧
      q.stepId = some cid ∧ isFailure r.verdict := by
  simp only [causeFailed, List.any_eq_true, Bool.and_eq_true, decide_eq_true_eq, Option.any_eq_true]
  constructor
  case mp =>
    rintro ⟨⟨q, o⟩, hm, hq, r, ho, hr⟩
    obtain ⟨k, hk⟩ := List.mem_iff_getElem?.mp hm
    obtain ⟨hp, hk⟩ := List.getElem?_zip_eq_some.mp hk
    exact ⟨k, q, r, hp, ho ▸ hk, hq, hr⟩
  case mpr =>
    rintro ⟨k, q, r, hp, hk, hq, hr⟩
    have hz := List.getElem?_zip_eq_some (z := (q, some r)) |>.mpr ⟨hp, hk⟩
    exact ⟨(q, some r), List.mem_of_getElem? hz, hq, r, rfl, hr⟩

-- A panel reads the results of the panels of the step that blocks it.
def Reads (scenario : Engine.Scenario) (trace : ScenarioTrace) (panels : List PanelConfig)
    (p : PanelConfig) (k : ℕ) : Prop :=
  ∃ row q, causeRow scenario trace p = some row ∧ panels[k]? = some q ∧ q.stepId = some row.stepId

theorem causeFailed_congr
    (h : ∀ (k : ℕ) q, panels[k]? = some q → q.stepId = some cid → out[k]? = out'[k]?) :
    causeFailed panels cid out = causeFailed panels cid out' := by
  rw [Bool.eq_iff_iff, causeFailed_iff, causeFailed_iff]
  constructor
  all_goals
    rintro ⟨k, q, r, hp, hk, hq, hr⟩
    have hout := h k q hp hq
    exact ⟨k, q, r, hp, by simp_all, hq, hr⟩

theorem judgePanel_congr (h : ∀ k, Reads scenario trace panels p k → out[k]? = out'[k]?) :
    judgePanel lib toLower scenario trace atMs panels flowCapSecs stepLimits i p out =
      judgePanel lib toLower scenario trace atMs panels flowCapSecs stepLimits i p out' := by
  unfold judgePanel
  split
  case h_1 => rfl
  case h_2 => rfl
  case h_3 k hp =>
    cases hr : trace.steps[k]?
    case none     => rfl
    case some row =>
      have hc : causeRow scenario trace p = some row := by
        rw [causeRow, hp]
        exact hr
      have hf : causeFailed panels row.stepId out = causeFailed panels row.stepId out' :=
        causeFailed_congr fun k q hk hq => h k ⟨row, q, hc, hk, hq⟩
      simp only [Option.bind_eq_bind, Option.bind_some, hf]

-- Later panels do not matter to a panel, nor does it to itself.
theorem not_reads {k : ℕ} (hq : panels[k]? = some q)
    (hle : frontEnd scenario trace p ≤ frontEnd scenario trace q) :
    ¬Reads scenario trace panels p k := by
  rintro ⟨row, q', hc, hk, hid⟩
  obtain rfl := Option.some.inj (hq.symm.trans hk)
  obtain ⟨j, hp, hj⟩ := causeRow_eq_some hc
  obtain ⟨hlt, -, row', hj', hb⟩ := preOf_cause hp
  obtain rfl := Option.some.inj (hj.symm.trans hj')
  have hkind : row.kind = .http := by
    simp only [blocks, Bool.and_eq_true, decide_eq_true_eq] at hb
    exact hb.left.left
  exact absurd (frontEnd_le hj hkind hid) (Nat.not_le_of_lt (hlt.trans_le hle))

theorem mem_panelOrder : (p, i) ∈ panelOrder scenario trace panels ↔ panels[i]? = some p :=
  List.mem_mergeSort.trans List.mem_zipIdx_iff_getElem?

theorem ordered_panels : Ordered
    (fun q out => judgePanel lib toLower scenario trace atMs panels flowCapSecs stepLimits q.2 q.1 out)
    Prod.snd (fun a => Reads scenario trace panels a.1) (panelOrder scenario trace panels) where
  total a ha out := by
    cases hc : causeRow scenario trace a.1
    case some row =>
      obtain ⟨r, hr, -⟩ := judgePanel_blocked hc
      exact Option.isSome_of_mem hr
    case none =>
      obtain ⟨r, hr, -⟩ := judgePanel_free hc
      exact Option.isSome_of_mem hr
  reading a _ out out' h := judgePanel_congr h
  own a ha := not_reads (mem_panelOrder.1 ha) le_rfl
  later := by
    have hsorted : (panelOrder scenario trace panels).Pairwise fun a b =>
        decide (frontEnd scenario trace a.1 ≤ frontEnd scenario trace b.1) :=
      List.pairwise_mergeSort (fun a b c => by simpa using Nat.le_trans)
        (fun a b => by simpa using Nat.le_total _ _) _
    have hslots : (panelOrder scenario trace panels).Pairwise fun a b => a.2 ≠ b.2 := by
      refine (List.mergeSort_perm _ _).pairwise_iff (fun h => h.symm) |>.mpr ?_
      rw [← List.pairwise_map (f := Prod.snd) (R := (· ≠ ·)), List.zipIdx_map_snd]
      exact List.nodup_range'
    refine List.Pairwise.imp_of_mem (fun ha hb h => ?_) (hslots.and hsorted)
    exact ⟨h.left, not_reads (mem_panelOrder.1 hb) (of_decide_eq_true h.right)⟩

-- Every panel is judged by the results of all of them.
theorem judgePanels_eq : ∃ results : List CheckResult,
    judgePanels lib toLower scenario trace atMs panels flowCapSecs stepLimits =
      some (results.map some) ∧
    results.length = panels.length ∧ ∀ {i p r}, panels[i]? = some p → results[i]? = some r →
      judgePanel lib toLower scenario trace atMs panels flowCapSecs stepLimits i p
        (results.map some) = some r := by
  have ho := @ordered_panels lib toLower scenario trace atMs panels flowCapSecs stepLimits
  have hlt {i p} (h : panels[i]? = some p) : i < panels.length :=
    (List.getElem?_eq_some_iff.mp h).choose
  have hslot : ∀ a ∈ panelOrder scenario trace panels,
      a.2 < (List.replicate panels.length (none : Option CheckResult)).length := fun a ha =>
    List.length_replicate ▸ hlt (mem_panelOrder.1 ha)
  obtain ⟨out, hf, hl, hout⟩ := fill_eq ho hslot
  rw [List.length_replicate] at hl
  have hsome : ∀ o ∈ out, o.isSome := by
    intro o hm
    obtain ⟨k, hk⟩ := List.mem_iff_getElem?.mp hm
    have hlt : k < panels.length := hl ▸ (List.getElem?_eq_some_iff.mp hk).choose
    obtain ⟨r, -, hr⟩ := hout _ (mem_panelOrder.2 (List.getElem?_eq_getElem hlt))
    obtain rfl := Option.some.inj (hk.symm.trans hr)
    rfl
  obtain ⟨results, rfl⟩ := exists_eq_map hsome
  refine ⟨results, hf, by simpa using hl, fun {i p r} hp hr => ?_⟩
  obtain ⟨r', hj, hr'⟩ := hout _ (mem_panelOrder.2 hp)
  rw [List.getElem?_map, hr] at hr'
  obtain rfl := Option.some.inj (Option.some.inj hr')
  exact hj

-- Whether a step has kept a panel from being checked.
def BlockedBy (scenario : Engine.Scenario) (trace : ScenarioTrace) (cid : String) (p : PanelConfig) :
    Prop :=
  ∃ row, causeRow scenario trace p = some row ∧ row.stepId = cid

-- Whether a panel of a step has been judged as a failure.
def Told (panels : List PanelConfig) (verdicts : List Verdict) (cid : String) : Prop :=
  ∃ (i : ℕ) (p : PanelConfig) (v : Verdict), panels[i]? = some p ∧ verdicts[i]? = some v ∧
    p.stepId = some cid ∧ isFailure v

-- What the verdicts of a unit say of the failures that keep panels from being checked. A panel says
-- that it is blocked only if a row before its step has failed, and not in a branch beside the one
-- of the step. If a panel of the step that has failed tells so, all panels that the step blocks say
-- that. Otherwise one of them tells the failure, and the others say that they are blocked.
structure Accounted (scenario : Engine.Scenario) (trace : ScenarioTrace) (panels : List PanelConfig)
    (verdicts : List Verdict) : Prop where
  cause : ∀ {i : ℕ} {p : PanelConfig}, panels[i]? = some p → verdicts[i]? = some .upstreamFailed →
    ∃ k row, k < sectionEnd scenario trace p.sid ∧ trace.steps[k]? = some row ∧
      blocks scenario p.sid row ∧ BlockedBy scenario trace row.stepId p
  told  : ∀ {cid : String}, Told panels verdicts cid → ∀ {i : ℕ} {p : PanelConfig},
    panels[i]? = some p → BlockedBy scenario trace cid p → verdicts[i]? = some .upstreamFailed
  once  : ∀ {cid : String}, ¬Told panels verdicts cid →
    (∃ p ∈ panels, BlockedBy scenario trace cid p) →
    ∃ (i : ℕ) (p : PanelConfig) (v : Verdict), panels[i]? = some p ∧ verdicts[i]? = some v ∧
      BlockedBy scenario trace cid p ∧ isFailure v ∧
      ∀ {j : ℕ} {q : PanelConfig}, panels[j]? = some q → BlockedBy scenario trace cid q → j ≠ i →
        verdicts[j]? = some .upstreamFailed

theorem told_iff :
    Told panels (results.map (·.verdict)) cid ↔ causeFailed panels cid (results.map some) := by
  simp only [Told, causeFailed_iff, List.getElem?_map, Option.map_eq_some_iff, Option.some.injEq,
    exists_eq_right]
  constructor
  case mp =>
    rintro ⟨k, q, _, hp, ⟨r, hr, rfl⟩, hq, hv⟩
    exact ⟨k, q, r, hp, hr, hq, hv⟩
  case mpr =>
    rintro ⟨k, q, r, hp, hr, hq, hv⟩
    exact ⟨k, q, _, hp, ⟨r, hr, rfl⟩, hq, hv⟩

theorem blockedBy_iff :
    BlockedBy scenario trace cid p ↔ (causeRow scenario trace p).any (·.stepId = cid) := by
  simp [BlockedBy, Option.any_eq_true]

theorem blocked_verdict
    (hj : judgePanel lib toLower scenario trace atMs panels flowCapSecs stepLimits i p
      (results.map some) = some r) (hb : BlockedBy scenario trace cid p) :
    (Told panels (results.map (·.verdict)) cid ∨
        isFirstBlocked scenario trace panels cid i = false → r.verdict = .upstreamFailed) ∧
      (¬Told panels (results.map (·.verdict)) cid →
        isFirstBlocked scenario trace panels cid i → isFailure r.verdict) := by
  obtain ⟨row, hc, rfl⟩ := hb
  obtain ⟨r', hj', hv⟩ := judgePanel_blocked hc
  obtain rfl := Option.some.inj (hj.symm.trans hj')
  rw [told_iff]
  split at hv
  case isTrue h  => exact ⟨fun hn => by simp [h] at hn, fun _ _ => hv⟩
  case isFalse h => exact ⟨fun _ => hv, fun ht hf => absurd ⟨Bool.eq_false_of_not_eq_true ht, hf⟩ h⟩

theorem accounted (hl : results.length = panels.length)
    (h : ∀ {i p r}, panels[i]? = some p → results[i]? = some r →
      judgePanel lib toLower scenario trace atMs panels flowCapSecs stepLimits i p
        (results.map some) = some r) :
    Accounted scenario trace panels (results.map (·.verdict)) := by
  have hget {i : ℕ} {p : PanelConfig} (hp : panels[i]? = some p) :
      ∃ r : CheckResult, results[i]? = some r ∧ (results.map (·.verdict))[i]? = some r.verdict := by
    have hlt : i < results.length := hl ▸ (List.getElem?_eq_some_iff.mp hp).choose
    have hr := List.getElem?_eq_getElem hlt
    exact ⟨_, hr, by rw [List.getElem?_map, hr]; rfl⟩
  constructor
  case cause =>
    intro i p hp hv
    obtain ⟨r, hr, hv'⟩ := hget hp
    have hv : r.verdict = .upstreamFailed := Option.some.inj (hv'.symm.trans hv)
    cases hc : causeRow scenario trace p
    case none =>
      obtain ⟨r', hj, hne⟩ := judgePanel_free hc
      obtain rfl := Option.some.inj ((h hp hr).symm.trans hj)
      exact absurd hv hne
    case some row =>
      obtain ⟨k, hk, hrow⟩ := causeRow_eq_some hc
      obtain ⟨-, hlt, row', hrow', hb⟩ := preOf_cause hk
      obtain rfl := Option.some.inj (hrow.symm.trans hrow')
      exact ⟨k, row, hlt, hrow, hb, row, hc, rfl⟩
  case told =>
    intro cid ht i p hp hb
    obtain ⟨r, hr, hv⟩ := hget hp
    rw [hv, (blocked_verdict (h hp hr) hb).left (.inl ht)]
  case once =>
    rintro cid ht ⟨p, hm, hb⟩
    cases hi : panels.findIdx? fun p => (causeRow scenario trace p).any (·.stepId = cid)
    case none =>
      have := List.findIdx?_eq_none_iff.mp hi p hm
      simp [blockedBy_iff.1 hb] at this
    case some i =>
      obtain ⟨hlt, hbi, -⟩ := List.findIdx?_eq_some_iff_getElem.mp hi
      have hbi := blockedBy_iff.2 hbi
      have hp := List.getElem?_eq_getElem hlt
      obtain ⟨r, hr, hv⟩ := hget hp
      have hf := (blocked_verdict (h hp hr) hbi).right ht (by simp [isFirstBlocked, hi])
      refine ⟨i, _, _, hp, hv, hbi, hf, fun {j q} hq hbq hne => ?_⟩
      obtain ⟨s, hs, hv⟩ := hget hq
      have hn : isFirstBlocked scenario trace panels cid j = false := by
        simpa [isFirstBlocked, hi] using hne.symm
      rw [hv, (blocked_verdict (h hq hs) hbq).left (.inr hn)]

-- The values that a panel shows do not matter to how it is judged.
theorem map_shown {α : Type} {f : CheckResult → α} (hf : ∀ r d, f { r with display := d } = f r)
    (hl : results.length = panels.length) :
    (results.zipWith (fun r p => { r with display := displayValues lib p trace }) panels).map f =
      results.map f := by
  conv_rhs => rw [← List.map_fst_zip (Nat.le_of_eq hl), List.map_map]
  rw [List.map_zipWith, ← List.map_uncurry_zip_eq_zipWith]
  exact List.map_congr_left fun q _ => hf q.1 _

theorem judgeUnit_eq (he : trace.error = none) : ∃ results : List CheckResult,
    judgeUnit lib toLower scenario trace atMs panels flowCapSecs stepLimits =
      some (results.zipWith (fun r p => { r with display := displayValues lib p trace }) panels) ∧
    results.length = panels.length ∧ ∀ {i p r}, panels[i]? = some p → results[i]? = some r →
      judgePanel lib toLower scenario trace atMs panels flowCapSecs stepLimits i p
        (results.map some) = some r := by
  obtain ⟨results, hj, hl, h⟩ := @judgePanels_eq lib toLower scenario trace atMs panels flowCapSecs
    stepLimits
  have hall : (results.map some).mapM id = some results := by
    rw [List.mapM_map]
    exact (List.mapM_pure (m := Option) (l := results) (f := id)).trans
      (congrArg some (List.map_id results))
  refine ⟨results, ?_, hl, h⟩
  simp [judgeUnit, he, hj, hall]

-- Every unit is judged. If its trace has an error of its own, all panels fail; otherwise every
-- failure that keeps panels from being checked is told by one panel.
theorem judgeUnit_accounts (lib : Engine.Libraries) (toLower : String → String)
    (scenario : Engine.Scenario) (trace : ScenarioTrace) (atMs : ℤ) (panels : List PanelConfig)
    (flowCapSecs : ℕ) (stepLimits : Table String ℕ) :
    ∃ results, judgeUnit lib toLower scenario trace atMs panels flowCapSecs stepLimits = some results ∧
      results.length = panels.length ∧
      if trace.error.isSome then ∀ r ∈ results, r.verdict = .fail
      else Accounted scenario trace panels (results.map (·.verdict)) := by
  split
  case isTrue he =>
    rw [judgeUnit, if_pos he]
    refine ⟨_, rfl, List.length_map _, fun r hr => ?_⟩
    obtain ⟨p, -, rfl⟩ := List.mem_map.mp hr
    rfl
  case isFalse he =>
    obtain ⟨results, hj, hl, h⟩ := judgeUnit_eq (Option.not_isSome_iff_eq_none.mp he)
    refine ⟨_, hj, ?_, ?_⟩
    case refine_1 => simp [hl]
    case refine_2 =>
      rw [map_shown (fun _ _ => rfl) hl]
      exact accounted hl h

-- A panel is shown as blocked only if another one is shown as failed.
theorem Accounted.failed {verdicts : List Verdict}
    (h : Accounted scenario trace panels verdicts) (hp : panels[i]? = some p)
    (hv : verdicts[i]? = some .upstreamFailed) : ∃ v ∈ verdicts, isFailure v := by
  obtain ⟨-, row, -, -, -, hb⟩ := h.cause hp hv
  by_cases ht : Told panels verdicts row.stepId
  case pos =>
    obtain ⟨k, q, v, -, hv, -, hf⟩ := ht
    exact ⟨v, List.mem_of_getElem? hv, hf⟩
  case neg =>
    obtain ⟨k, q, v, -, hv, -, hf, -⟩ := h.once ht ⟨p, List.mem_of_getElem? hp, hb⟩
    exact ⟨v, List.mem_of_getElem? hv, hf⟩

-- Whether a result tells the failure of a row, as the panel of its step would.
def Tells (scenario : Engine.Scenario) (stepLimits : Table String ℕ) (row : StepTrace)
    (r : CheckResult) : Prop :=
  let http := findHttp scenario row.stepId
  let failure := errorVerdict http row (row.error.getD "")
    ((stepLimits.lookup row.stepId).getD defaultStepLimitSecs)
  r.verdict = failure.1 ∧ r.detail = some (shown s!"{stepName http row.stepId} · {failure.2}")

-- Whether exactly one of the panels that a step has blocked tells the failure of the step.
def ToldByOne (scenario : Engine.Scenario) (trace : ScenarioTrace) (panels : List PanelConfig)
    (stepLimits : Table String ℕ) (results : List CheckResult) (cid : String) : Prop :=
  ∃ (i : ℕ) (p : PanelConfig) (row : StepTrace) (r : CheckResult),
    panels[i]? = some p ∧ results[i]? = some r ∧ causeRow scenario trace p = some row ∧
    row.stepId = cid ∧ Tells scenario stepLimits row r ∧ isFailure r.verdict ∧
    ∀ {j : ℕ} {q : PanelConfig} {s : CheckResult}, panels[j]? = some q → results[j]? = some s →
      BlockedBy scenario trace cid q → j ≠ i → s.verdict = .upstreamFailed

theorem toldByOne (hl : results.length = panels.length)
    (h : ∀ {i p r}, panels[i]? = some p → results[i]? = some r →
      judgePanel lib toLower scenario trace atMs panels flowCapSecs stepLimits i p
        (results.map some) = some r)
    (ht : ¬Told panels (results.map (·.verdict)) cid)
    (hb : ∃ p ∈ panels, BlockedBy scenario trace cid p) :
    ToldByOne scenario trace panels stepLimits
      (results.zipWith (fun r p => { r with display := displayValues lib p trace }) panels) cid := by
  obtain ⟨i, p, v, hp, hv, ⟨row, hc, rfl⟩, hf, hall⟩ := (accounted hl h).once ht hb
  rw [List.getElem?_map, Option.map_eq_some_iff] at hv
  obtain ⟨r, hr, rfl⟩ := hv
  have hj := judgePanel_failed hc (h hp hr) hf
  have hz : (results.zipWith (fun r p => { r with display := displayValues lib p trace }) panels)[i]? =
      some { r with display := displayValues lib p trace } :=
    List.getElem?_zipWith_eq_some.mpr ⟨r, p, hr, hp, rfl⟩
  refine ⟨i, p, row, _, hp, hz, hc, rfl, ?_, hf, fun {j q s} hq hs hbq hne => ?_⟩
  case refine_1 =>
    rw [hj]
    exact ⟨rfl, rfl⟩
  case refine_2 =>
    obtain ⟨s', -, hs', -, rfl⟩ := List.getElem?_zipWith_eq_some.mp hs
    have hv := hall hq hbq hne
    rw [List.getElem?_map, hs'] at hv
    exact Option.some.inj hv

-- A failure is never shown by blocked panels alone. A failure that keeps panels from being checked
-- is told by a panel of its own step or by exactly one of the panels, and a panel that is shown as
-- blocked has a failed row before its step, whether the step has rows or not, and not in a branch
-- beside the one of the step.
theorem judgeUnit_never_grey (lib : Engine.Libraries) (toLower : String → String)
    (scenario : Engine.Scenario) (trace : ScenarioTrace) (atMs : ℤ) (panels : List PanelConfig)
    (flowCapSecs : ℕ) (stepLimits : Table String ℕ) (he : trace.error = none) :
    ∃ results, judgeUnit lib toLower scenario trace atMs panels flowCapSecs stepLimits = some results ∧
      results.length = panels.length ∧
      (∀ cid, (∃ p ∈ panels, BlockedBy scenario trace cid p) →
        Told panels (results.map (·.verdict)) cid ∨
        ToldByOne scenario trace panels stepLimits results cid) ∧
      ((∃ r ∈ results, r.verdict = .upstreamFailed) → ∃ r ∈ results, isFailure r.verdict) ∧
      ∀ (i : ℕ) (p : PanelConfig) (r : CheckResult), panels[i]? = some p → results[i]? = some r →
        r.verdict = .upstreamFailed →
        ∃ k row, k < sectionEnd scenario trace p.sid ∧ trace.steps[k]? = some row ∧
          row.kind = .http ∧ row.error.isSome ∧
          inSiblingBranch (chainOf scenario p.sid) (ancestors scenario row.stepId) = false ∧
          ∀ (j : ℕ) (own : StepTrace), trace.steps[j]? = some own → isRowOf p.sid own → k < j := by
  obtain ⟨judged, hj, hl, h⟩ := @judgeUnit_eq lib toLower scenario trace atMs panels flowCapSecs
    stepLimits he
  have ha : Accounted scenario trace panels (judged.map (·.verdict)) := accounted hl h
  have hv : (judged.zipWith (fun r p => { r with display := displayValues lib p trace }) panels).map
      (·.verdict) = judged.map (·.verdict) := map_shown (fun _ _ => rfl) hl
  refine ⟨_, hj, by simp [hl], fun cid hb => ?_, ?_, ?_⟩
  case refine_1 =>
    rw [hv]
    by_cases ht : Told panels (judged.map (·.verdict)) cid
    case pos => exact .inl ht
    case neg => exact .inr (toldByOne hl h ht hb)
  case refine_2 =>
    rintro ⟨r, hm, hr⟩
    obtain ⟨i, hi⟩ := List.mem_iff_getElem?.mp hm
    obtain ⟨-, p, -, hp, -⟩ := List.getElem?_zipWith_eq_some.mp hi
    obtain ⟨v, hm, hf⟩ := ha.failed hp (by rw [← hv, List.getElem?_map, hi, ← hr]; rfl)
    rw [← hv] at hm
    obtain ⟨s, hs, rfl⟩ := List.mem_map.mp hm
    exact ⟨s, hs, hf⟩
  case refine_3 =>
    intro i p r hp hr hu
    obtain ⟨k, row, hlt, hrow, hb, -⟩ :=
      ha.cause hp (by rw [← hv, List.getElem?_map, hr, ← hu]; rfl)
    simp only [blocks, Bool.and_eq_true, decide_eq_true_eq, Bool.not_eq_true'] at hb
    exact ⟨k, row, hlt, hrow, hb.left.left, hb.left.right, hb.right, fun j own hown hid =>
      hlt.trans_le (sectionEnd_le hown hid)⟩

-- A login that fails before two panels, none of which is bound to it.
def loginScenario : Engine.Scenario :=
  let step (id : String) : Engine.Step :=
    .http { id, name := "", request := ⟨.get, "/", [], none, ⟨[], []⟩⟩, assertions := []
            extract := [], timeoutSeconds := none, thinkTime := none }
  { version := 1, name := "홈", varDecls := [], cookieJar := true, defaultThinkTime := none
    notes := none, steps := [step "login", step "home", step "mail"] }

def loginTrace : ScenarioTrace where
  ok        := false
  totalMs   := 0
  steps     := [{ stepId      := "login"
                  kind        := .http
                  loopIndex   := none
                  branch      := none
                  request     := none
                  response    := none
                  extracted   := ∅
                  unboundVars := []
                  error       := some "connection refused"
                  branchEval  := []
                  timedOut    := false }]
  finalVars := ∅
  truncated := false
  error     := none

def loginPanels : List PanelConfig :=
  [{ id := "p1", stepId := some "home" }, { id := "p2", stepId := some "mail" }]

theorem judgeUnit_never_grey_login : ∃ results,
    judgeUnit Engine.plainLibraries id loginScenario loginTrace 0 loginPanels 60 ∅ = some results ∧
    results.length = 2 ∧ ToldByOne loginScenario loginTrace loginPanels ∅ results "login" := by
  obtain ⟨results, hj, hl, htold, -⟩ := judgeUnit_never_grey Engine.plainLibraries id loginScenario
    loginTrace 0 loginPanels 60 ∅ rfl
  have hb : BlockedBy loginScenario loginTrace "login" { id := "p1", stepId := some "home" } :=
    blockedBy_iff.2 (by decide)
  refine ⟨results, hj, hl, (htold "login" ⟨_, List.mem_cons_self, hb⟩).resolve_left ?_⟩
  rintro ⟨i, p, v, hp, -, hid, -⟩
  have hnone : ∀ p ∈ loginPanels, p.stepId ≠ some "login" := by decide
  exact hnone p (List.mem_of_getElem? hp) hid

end Monitor
