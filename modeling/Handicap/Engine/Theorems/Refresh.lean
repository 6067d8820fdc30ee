import Handicap.Engine.Theorems.Executor
import Handicap.Engine.Theorems.Runner

-- What has been written into a variable is not generated again.
namespace Engine

-- The variables of a line of control, and which of them have been written.
structure Scope where
  vars    : String → Option String
  written : String → Prop

namespace Scope

def assign (vars : String → Option String) (entries : List (String × String)) :
    String → Option String :=
  entries.foldl (fun vars e => Function.update vars e.1 (some e.2)) vars

def write (sc : Scope) (entries : List (String × String)) : Scope :=
  ⟨assign sc.vars entries, fun x => sc.written x ∨ x ∈ entries.map Prod.fst⟩

end Scope

-- The scope after an event. The branches of a parallel step change nothing in it.
def Event.after : Event → Scope → Scope
  | .http _ _ _ vars (.ok (_, outcome)), sc =>
    Scope.write ⟨vars.lookup, sc.written⟩ outcome.extracted.toList
  | .http _ _ _ vars (.error _), sc         => ⟨vars.lookup, sc.written⟩
  | .merged _ entries, sc                   => sc.write entries
  | .paced _ _, sc                          => sc
  | .branch _ _, sc                         => sc
  | .forked _, sc                           => sc
  | .group _ _ _, sc                        => sc

def afterLog (log : List Event) (sc : Scope) : Scope :=
  log.foldl (fun sc e => e.after sc) sc

section

variable (declared : List String)

mutual

-- A request is rendered with the variables of its scope and those that are generated again before
-- it. These have not been written, and each one that it refers to is among them. Every branch
-- begins with the scope of the fork. What is merged is named after its branch.
def Event.Respects : Event → Scope → Prop
  | .http step _ refreshed vars _, sc =>
    vars.lookup = Scope.assign sc.vars refreshed ∧
      (∀ e ∈ refreshed, ¬sc.written e.1) ∧
      ∀ x ∈ declared, step.request.Refers x → ¬sc.written x → x ∈ refreshed.map Prod.fst
  | .merged branch entries, _         => ∀ e ∈ entries, ∃ k : String, e.1 = s!"{branch}.{k}"
  | .forked branches, sc              => branchesRespect branches sc
  | .paced _ _, _                     => True
  | .branch _ _, _                    => True
  | .group _ _ _, _                   => True

def logRespects : List Event → Scope → Prop
  | [], _        => True
  | e :: log, sc => e.Respects sc ∧ logRespects log (e.after sc)

def branchesRespect : List (String × List Event) → Scope → Prop
  | [], _                  => True
  | (_, log) :: branches, sc => logRespects log sc ∧ branchesRespect branches sc

end

end

-- A plan that covers some steps.
structure Covers (plan : Option RequestGenPlan) (declared : List String) (steps : List HttpStep) :
    Prop where
  indexed : ∀ p ∈ plan, ∀ id, ∀ i ∈ p.targets id, ∃ x, p.index x = some i
  refers  : ∀ step ∈ steps, ∀ x ∈ declared, step.request.Refers x →
    ∃ p ∈ plan, ∃ i ∈ p.targets step.id, p.index x = some i

-- The state of a strand is that of a scope.
structure Tracks (plan : Option RequestGenPlan) (s : Strand) (sc : Scope) : Prop where
  vars : s.vars.lookup = sc.vars
  plan : s.req.map ReqGen.plan = plan
  dead : ∀ rg ∈ s.req, ∀ x i, rg.plan.index x = some i →
    sc.written x ∧ rg.dead[i]? = some true ∨ ¬sc.written x ∧ rg.dead[i]? = some false

variable {plan : Option RequestGenPlan} {declared : List String} {steps : List HttpStep}
variable {s : Strand} {sc : Scope} {log log' : List Event} {entries : List (String × String)}

theorem logRespects_append :
    logRespects declared (log ++ log') sc ↔
      logRespects declared log sc ∧ logRespects declared log' (afterLog log sc) := by
  induction log generalizing sc
  case nil           => simp [logRespects, afterLog]
  case cons e log ih => simp [logRespects, ih, afterLog, and_assoc]

theorem afterLog_append : afterLog (log ++ log') sc = afterLog log' (afterLog log sc) :=
  List.foldl_append

theorem lookup_insert (vars : Table String String) (entries : List (String × String)) :
    (entries.foldl (fun vars e => vars.insert e.1 e.2) vars).lookup =
      Scope.assign vars.lookup entries := by
  induction entries generalizing vars
  case nil => rfl
  case cons e entries ih =>
    rw [List.foldl_cons, ih, Scope.assign, Scope.assign, List.foldl_cons]
    congr 1
    funext x
    by_cases hx : x = e.1
    case pos =>
      subst hx
      rw [Function.update_self, AList.lookup_insert]
    case neg => rw [Function.update_of_ne hx, AList.lookup_insert_ne hx]

theorem index_inj {p : RequestGenPlan} {x y : String} {i : ℕ} (hx : p.index x = some i)
    (hy : p.index y = some i) : x = y := by
  have hx := (List.findIdx?_eq_some_iff_getElem.mp hx).choose_spec.1
  have hy := (List.findIdx?_eq_some_iff_getElem.mp hy).choose_spec.1
  simp at hx hy
  rw [← hx, ← hy]

theorem markWritten_plan (rg : ReqGen) (keys : List String) :
    (rg.markWritten keys).plan = rg.plan := by
  induction keys generalizing rg
  case nil => rfl
  case cons k keys ih =>
    rw [ReqGen.markWritten, List.foldl_cons]
    refine (ih _).trans ?_
    split <;> rfl

-- Only the flags of the keys are set.
theorem markWritten_dead (rg : ReqGen) {keys : List String} {x : String} {i : ℕ}
    (hx : rg.plan.index x = some i) (hi : i < rg.dead.length) :
    (rg.markWritten keys).dead[i]? = if x ∈ keys then some true else rg.dead[i]? := by
  induction keys generalizing rg
  case nil => simp [ReqGen.markWritten]
  case cons k keys ih =>
    have hstep : (rg.markWritten [k]).dead[i]? = if x = k then some true else rg.dead[i]? := by
      rw [ReqGen.markWritten, List.foldl_cons, List.foldl_nil]
      split
      case h_1 j hj =>
        have hij : x = k ↔ j = i := by
          constructor
          case mp  => rintro rfl; exact Option.some_inj.mp (hj.symm.trans hx)
          case mpr => rintro rfl; exact index_inj hx hj
        simp only [hij, List.getElem?_set]
        split_ifs <;> simp_all
      case h_2 hj =>
        rw [if_neg]
        rintro rfl
        simp [hx] at hj
    have hlen : (rg.markWritten [k]).dead.length = rg.dead.length := by
      rw [ReqGen.markWritten, List.foldl_cons, List.foldl_nil]
      split <;> simp
    have ih := ih (rg.markWritten [k]) (by rwa [markWritten_plan]) (hlen ▸ hi)
    rw [hstep] at ih
    have hm : rg.markWritten (k :: keys) = (rg.markWritten [k]).markWritten keys := rfl
    rw [hm, ih]
    simp only [List.mem_cons]
    split_ifs <;> simp_all

namespace Tracks

variable {s' : Strand} {rg : ReqGen} {x : String} {i : ℕ}

theorem of_eq (h : Tracks plan s sc) (hv : s'.vars = s.vars) (hr : s'.req = s.req) :
    Tracks plan s' sc where
  vars := hv ▸ h.vars
  plan := hr ▸ h.plan
  dead := hr ▸ h.dead

theorem lt (h : Tracks plan s sc) (hr : rg ∈ s.req) (hx : rg.plan.index x = some i) :
    i < rg.dead.length := by
  cases h.dead rg hr x i hx
  case inl h => exact (List.getElem?_eq_some_iff.mp h.2).1
  case inr h => exact (List.getElem?_eq_some_iff.mp h.2).1

-- What is written is marked.
theorem merge (h : Tracks plan s sc) (entries) : Tracks plan (s.merge entries) (sc.write entries) where
  vars := by
    rw [Scope.write, ← h.vars, ← lookup_insert]
    rfl
  plan := by
    rw [← h.plan, Strand.merge, Strand.markWritten, Option.map_map]
    exact congrArg (Option.map · s.req) (funext fun rg => markWritten_plan rg _)
  dead rg hr x i hx := by
    obtain ⟨rg, hm, rfl⟩ := Option.mem_map.mp hr
    have hm : rg ∈ s.req := hm
    rw [markWritten_plan] at hx
    rw [markWritten_dead rg hx (h.lt hm hx)]
    by_cases hk : x ∈ entries.map Prod.fst
    case pos => exact .inl ⟨.inr hk, if_pos hk⟩
    case neg =>
      rw [if_neg hk]
      refine (h.dead rg hm x i hx).imp (And.imp_left .inl) (And.imp_left fun hw hw' => ?_)
      exact hw'.elim hw hk

-- What is generated is not marked.
theorem refresh (h : Tracks plan s sc) (entries) :
    Tracks plan (s.insert entries) ⟨Scope.assign sc.vars entries, sc.written⟩ where
  vars := by
    rw [← h.vars, ← lookup_insert]
    rfl
  plan := h.plan
  dead := h.dead

variable {generate : ℕ → GenSpec → String} {step : HttpStep}

theorem mem_plan (h : Tracks plan s sc) (hr : rg ∈ s.req) : rg.plan ∈ plan := by
  rw [← h.plan]
  exact Option.mem_map_of_mem ReqGen.plan hr

theorem fst_eq_of_index {p : RequestGenPlan} {g : String × GenSpec} (hx : p.index x = some i)
    (hg : p.gens[i]? = some g) : g.1 = x := by
  have ⟨hlt, hd, _⟩ := List.findIdx?_eq_some_iff_getElem.mp hx
  have hn : p.names[i]? = some g.1 := by simp [RequestGenPlan.names, hg]
  have hn := (List.getElem?_eq_some_iff.mp hn).choose_spec
  rw [← hn]
  exact of_decide_eq_true hd

theorem unwritten (hc : Covers plan declared steps) {stepId : String} (h : Tracks plan s sc) :
    ∀ e ∈ (s.req.map fun rg => rg.refreshed generate stepId).getD [], ¬sc.written e.1 := by
  intro e he
  cases hreq : s.req
  case none => simp [hreq] at he
  case some rg =>
    rw [hreq] at he
    obtain ⟨i, hi, he⟩ := List.mem_filterMap.mp he
    split_ifs at he with hd
    obtain ⟨g, hg, rfl⟩ := Option.map_eq_some_iff.mp he
    have ⟨x, hx⟩ := hc.indexed rg.plan (h.mem_plan hreq) stepId i hi
    rw [fst_eq_of_index hx hg]
    cases h.dead rg hreq x i hx
    case inl hw => simp [hd] at hw
    case inr hw => exact hw.1

theorem mem_refreshed (hc : Covers plan declared steps) (h : Tracks plan s sc) (hs : step ∈ steps)
    (hx : x ∈ declared) (hf : step.request.Refers x) (hw : ¬sc.written x) :
    x ∈ ((s.req.map fun rg => rg.refreshed generate step.id).getD []).map Prod.fst := by
  have ⟨p, hp, i, hi, hix⟩ := hc.refers step hs x hx hf
  rw [← h.plan] at hp
  obtain ⟨rg, hr, rfl⟩ := Option.mem_map.mp hp
  have hd : rg.dead[i]? = some false := by
    cases h.dead rg hr x i hix
    case inl h => exact absurd h.1 hw
    case inr h => exact h.2
  have hlt : i < rg.plan.gens.length := by
    have ⟨hlt, _⟩ := List.findIdx?_eq_some_iff_getElem.mp hix
    simpa [RequestGenPlan.names] using hlt
  have hg : rg.plan.gens[i]? = some rg.plan.gens[i] := List.getElem?_eq_getElem hlt
  have hreq : s.req = some rg := hr
  rw [hreq]
  refine List.mem_map.mpr ⟨(x, generate i rg.plan.gens[i].2), ?_, rfl⟩
  refine List.mem_filterMap.mpr ⟨i, hi, ?_⟩
  rw [if_pos hd, hg, ← fst_eq_of_index hix hg]
  rfl

end Tracks

-- What a run has to show for itself: its log, and the scope that it ends with.
structure Good (plan : Option RequestGenPlan) (declared : List String) (r : Run) (sc : Scope) :
    Prop where
  log    : logRespects declared r.log sc
  tracks : Tracks plan r.strand (afterLog r.log sc)

namespace Good

variable {r : Run} {k : Strand → Run} {it : Iteration}

theorem stop {flow : Except EngineError StepFlow} (h : Tracks plan s sc) :
    Good plan declared ⟨flow, s, []⟩ sc :=
  ⟨trivial, h⟩

theorem next (h : Good plan declared r sc)
    (hk : ∀ s sc, Tracks plan s sc → Good plan declared (k s) sc) :
    Good plan declared (r.next k) sc := by
  unfold Run.next
  split
  case h_1 =>
    have h' := hk _ _ h.tracks
    exact ⟨logRespects_append.2 ⟨h.log, h'.log⟩, afterLog_append ▸ h'.tracks⟩
  case h_2 => exact h

theorem guarded (h : Tracks plan s sc)
    (hk : ∀ s sc, Tracks plan s sc → Good plan declared (k s) sc) :
    Good plan declared (it.guarded s k) sc := by
  have h : Tracks plan (it.look s) sc := h.of_eq rfl rfl
  unfold Iteration.guarded
  simp only
  split_ifs
  case pos     => exact stop h
  case pos     => exact stop h
  case neg     => exact hk _ _ h

theorem rounds {body : ℕ → Strand → Run}
    (hb : ∀ i s sc, Tracks plan s sc → Good plan declared (body i s) sc) (n i : ℕ)
    (h : Tracks plan s sc) : Good plan declared (it.rounds body n i s) sc := by
  induction n generalizing i s sc
  case zero      => exact stop h
  case succ n ih =>
    exact guarded h fun s sc h => (hb i s sc h).next fun s sc h => ih (i + 1) h

theorem think (thinkTime) (h : Tracks plan s sc) : Good plan declared (it.think thinkTime s) sc := by
  cases thinkTime
  case none => exact stop h
  case some tt =>
    have ⟨tick, clock, hs⟩ := think_strand it (some tt) s
    have ht : Tracks plan (it.think (some tt) s).strand sc := hs ▸ h.of_eq rfl rfl
    exact ⟨⟨trivial, trivial⟩, ht⟩

-- What is generated again before a request is what has not been written, and all that it refers to.
theorem http (hc : Covers plan declared steps) {step : HttpStep} (hs : step ∈ steps)
    (loopIndex defaultThink) (h : Tracks plan s sc) :
    Good plan declared (it.executeHttp step loopIndex defaultThink s) sc := by
  let generate (i : ℕ) := it.outside.generated (i :: s.place)
  let refreshed := (s.req.map fun rg => rg.refreshed generate step.id).getD []
  have hr : Tracks plan (s.insert refreshed) ⟨Scope.assign sc.vars refreshed, sc.written⟩ :=
    h.refresh refreshed
  have hunwritten : ∀ e ∈ refreshed, ¬sc.written e.1 := h.unwritten hc
  have hall : ∀ x ∈ declared, step.request.Refers x → ¬sc.written x →
      x ∈ refreshed.map Prod.fst := fun x hx hf hw => h.mem_refreshed hc hs hx hf hw
  have hlog : ∀ result, logRespects declared
      [.http step loopIndex refreshed (s.insert refreshed).vars result] sc :=
    fun _ => ⟨⟨hr.vars, hunwritten, hall⟩, trivial⟩
  have hv : (⟨(s.insert refreshed).vars.lookup, sc.written⟩ : Scope) =
      ⟨Scope.assign sc.vars refreshed, sc.written⟩ := by rw [hr.vars]
  unfold Iteration.executeHttp
  simp only
  split
  case h_1 e he =>
    refine ⟨hlog _, ?_⟩
    have hr' : Tracks plan (s.insert refreshed).turned
        ⟨(s.insert refreshed).vars.lookup, sc.written⟩ := hv ▸ hr.of_eq rfl rfl
    exact hr'
  case h_2 request outcome duration he =>
    refine next ⟨hlog _, ?_⟩ fun s sc h => think _ h
    have hr' : Tracks plan (s.insert refreshed)
        ⟨(s.insert refreshed).vars.lookup, sc.written⟩ := hv ▸ hr
    exact (hr'.merge outcome.extracted.toList).of_eq rfl rfl

theorem mergeAll {branches : List BranchRun} {flow : StepFlow} (h : Tracks plan s sc) :
    Good plan declared (BranchRun.mergeAll branches flow s) sc := by
  induction branches generalizing flow s sc
  case nil => exact stop h
  case cons b branches ih =>
    rw [BranchRun.mergeAll]
    cases b.run.flow
    case error => exact stop h
    case ok f =>
      have h' := h.merge b.entries
      refine ⟨⟨?_, (ih h').log⟩, (ih h').tracks⟩
      intro e he
      obtain ⟨k, _, hk⟩ := List.mem_filterMap.mp he
      obtain ⟨v, _, rfl⟩ := Option.map_eq_some_iff.mp hk
      exact ⟨k, rfl⟩

theorem recordGroup {id : String} {branches : List BranchRun} {start finish : ℚ}
    {flow : Except EngineError StepFlow} :
    logRespects declared (BranchRun.recordGroup id branches start finish flow) sc ∧
      afterLog (BranchRun.recordGroup id branches start finish flow) sc = sc := by
  unfold BranchRun.recordGroup
  split
  case h_1 => exact ⟨⟨trivial, trivial⟩, rfl⟩
  case h_2 => exact ⟨trivial, rfl⟩

-- The branches have begun with the scope of the fork, which is as it was when they have ended.
theorem join {id : String} {branches : List BranchRun} (h : Tracks plan s sc)
    (hb : branchesRespect declared (branches.map fun b => (b.name, b.run.log)) sc) :
    Good plan declared (BranchRun.join id branches s) sc := by
  let clock := (branches.map fun b => b.run.strand.clock).foldl max s.clock
  have ht : Tracks plan { s.turned with clock := clock } sc := h.of_eq rfl rfl
  have hm : Good plan declared
      (BranchRun.mergeAll branches .continue { s.turned with clock := clock }) sc := mergeAll ht
  refine ⟨⟨hb, logRespects_append.2 ⟨hm.log, recordGroup.1⟩⟩, ?_⟩
  have hafter (bs : List (String × List Event)) (log log' : List Event)
      (hl : ∀ sc, afterLog log' sc = sc) :
      afterLog (.forked bs :: log ++ log') sc = afterLog log sc := by
    rw [afterLog_append, hl]
    rfl
  have hg (sc) {flow} : afterLog (BranchRun.recordGroup id branches s.clock clock flow) sc = sc :=
    (@recordGroup declared sc ..).2
  have hm := hm.tracks
  rw [← hafter _ _ _ fun sc => hg sc] at hm
  exact hm

mutual

-- By induction on the steps.
theorem executeOne (hc : Covers plan declared steps) (step : Step) (hs : step.https ⊆ steps)
    (loopIndex defaultThink) {s : Strand} {sc : Scope} (h : Tracks plan s sc) :
    Good plan declared (it.executeOne step loopIndex defaultThink s) sc := by
  cases step
  case http step => exact http hc (hs List.mem_cons_self) loopIndex defaultThink h
  case loop id name repeats body =>
    exact rounds (fun i s sc h => executeSteps hc body hs (some i) defaultThink h) repeats 0 h
  case ifStep id name cond thenSteps elifs elseSteps =>
    have ⟨h₁₂, h₃⟩ := List.append_subset.mp hs
    have ⟨h₁, h₂⟩ := List.append_subset.mp h₁₂
    have hr : Good plan declared (⟨.ok .continue, s, [.branch id
        (selectBranch it.lib (it.context loopIndex s) cond elifs elseSteps).label]⟩) sc :=
      ⟨⟨trivial, trivial⟩, h⟩
    rw [Iteration.executeOne]
    refine hr.next fun s sc h => ?_
    split
    case h_1 => exact executeSteps hc thenSteps h₁ loopIndex defaultThink h
    case h_2 => exact executeElif hc elifs h₂ _ loopIndex defaultThink h
    case h_3 => exact executeSteps hc elseSteps h₃ loopIndex defaultThink h
  case parallel id name branches =>
    exact join h (executeBranches hc branches hs 0 loopIndex h)

theorem executeSteps (hc : Covers plan declared steps) (l : List Step) (hs : collectHttp l ⊆ steps)
    (loopIndex defaultThink) {s : Strand} {sc : Scope} (h : Tracks plan s sc) :
    Good plan declared (it.executeSteps l loopIndex defaultThink s) sc := by
  cases l
  case nil => exact stop h
  case cons step l =>
    have ⟨h₁, h₂⟩ := List.append_subset.mp hs
    exact guarded h fun s sc h =>
      (executeOne hc step h₁ loopIndex defaultThink h).next fun s sc h =>
        executeSteps hc l h₂ loopIndex defaultThink h

theorem executeElif (hc : Covers plan declared steps) (l : List (Condition × List Step))
    (hs : collectElifHttp l ⊆ steps) (j : ℕ) (loopIndex defaultThink) {s : Strand} {sc : Scope}
    (h : Tracks plan s sc) :
    Good plan declared (it.executeElif l j loopIndex defaultThink s) sc := by
  cases l
  case nil => exact stop h
  case cons e l =>
    obtain ⟨cond, body⟩ := e
    have ⟨h₁, h₂⟩ := List.append_subset.mp hs
    cases j
    case zero   => exact executeSteps hc body h₁ loopIndex defaultThink h
    case succ j => exact executeElif hc l h₂ j loopIndex defaultThink h

theorem executeBranches (hc : Covers plan declared steps) (l : List (String × List Step))
    (hs : collectBranchHttp l ⊆ steps) (b : ℕ) (loopIndex) {s : Strand} {sc : Scope}
    (h : Tracks plan s sc) :
    branchesRespect declared
      ((it.executeBranches l b loopIndex s).map fun b => (b.name, b.run.log)) sc := by
  cases l
  case nil => trivial
  case cons e l =>
    obtain ⟨name, body⟩ := e
    have ⟨h₁, h₂⟩ := List.append_subset.mp hs
    have hf : Tracks plan (s.fork b) sc := h.of_eq rfl rfl
    exact ⟨(executeSteps hc body h₁ loopIndex none hf).log,
      executeBranches hc l h₂ (b + 1) loopIndex h⟩

end

end Good

theorem mem_dummyEnv {names : List String} {x : String} (env : Table String String)
    (hx : x ∈ names ∨ x ∈ env) : x ∈ names.foldl (fun env name => env.insert name "") env := by
  induction names generalizing env
  case nil => simpa using hx
  case cons name names ih =>
    refine ih _ ?_
    rw [AList.mem_insert]
    cases hx
    case inl hx => exact (List.mem_cons.mp hx).elim (fun h => .inr (.inl h)) .inl
    case inr hx => exact .inr (.inr hx)

-- The variables that are generated again for every request.
def refreshNames (scenario : Scenario) : List String :=
  (RequestGenPlan.declared scenario.varDecls).map Prod.fst

theorem build_covers {fromStr : String → Option Json} {scenario : Scenario} :
    Covers (RequestGenPlan.build fromStr scenario) (refreshNames scenario)
      (collectHttp scenario.steps) := by
  unfold RequestGenPlan.build
  simp only
  split_ifs with hn
  case pos =>
    refine ⟨fun p hp => (by cases hp), fun step _ x hx => ?_⟩
    simp [refreshNames, hn] at hx
  case neg =>
    have hdummy (x : String)
        (hx : ((refreshNames scenario).findIdx? (· = x)).isSome) :
        (((refreshNames scenario).foldl (fun env name => env.insert name "")
          (∅ : Table String String)).lookup x).isSome := by
      have hm : x ∈ refreshNames scenario := by simpa using hx
      exact AList.lookup_isSome.mpr (mem_dummyEnv ∅ (.inl hm))
    constructor
    case indexed =>
      intro p hp id i hi
      cases hp
      obtain ⟨hlt, hi⟩ := List.mem_filter.mp hi
      obtain ⟨step, _, hs⟩ := List.any_eq_true.mp hi
      have hs := (of_decide_eq_true hs).2
      have ⟨_, x, hx, _⟩ := (mem_requestFlowRefs hdummy).mp hs
      exact ⟨x, hx⟩
    case refers =>
      intro step hs x hx hf
      refine ⟨_, rfl, ?_⟩
      have hsome : ((refreshNames scenario).findIdx? (· = x)).isSome := by simpa using hx
      obtain ⟨i, hi⟩ := Option.isSome_iff_exists.mp hsome
      have hlt : i < (refreshNames scenario).length :=
        (List.findIdx?_eq_some_iff_getElem.mp hi).choose
      refine ⟨i, List.mem_filter.mpr ⟨List.mem_range.mpr hlt, ?_⟩, hi⟩
      refine List.any_eq_true.mpr ⟨step, hs, decide_eq_true ⟨rfl, ?_⟩⟩
      exact (mem_requestFlowRefs hdummy).mpr ⟨hlt, x, hi, hf⟩

-- The scope that an iteration begins with: nothing has been written but by the rows.
def startScope (it : Iteration) (scenario : Scenario) (rows : List (Table String String)) : Scope :=
  let vars := seedIterVars (fun i => it.outside.generated [i]) scenario.varDecls
  rows.foldl (fun sc row => sc.write row.toList) ⟨vars.lookup, fun _ => False⟩

theorem Tracks.bind (h : Tracks plan s sc) (rows : List (Table String String)) :
    Tracks plan (rows.foldl (fun s row => s.merge row.toList) s)
      (rows.foldl (fun sc row => sc.write row.toList) sc) := by
  induction rows generalizing s sc
  case nil              => exact h
  case cons row rows ih => exact ih (h.merge row.toList)

theorem start_tracks {it : Iteration} {scenario : Scenario} (rows) (clock) :
    Tracks (RequestGenPlan.build it.lib.fromStr scenario) (it.start scenario rows clock)
      (startScope it scenario rows) := by
  refine Tracks.bind ⟨rfl, ?_, ?_⟩ rows
  case refine_1 =>
    rw [Option.map_map]
    exact Option.map_id'
  case refine_2 =>
    intro rg hr x i hx
    obtain ⟨p, _, rfl⟩ := Option.mem_map.mp hr
    have hlt : i < (p.gens.map Prod.fst).length :=
      (List.findIdx?_eq_some_iff_getElem.mp hx).choose
    rw [List.length_map] at hlt
    exact .inr ⟨not_false, List.getElem?_replicate_of_lt hlt⟩

-- A variable that has been written, by a row, by an extract or by the merge of a branch, is not
-- generated again in the iteration or the branch, and all the others that a request refers to are.
theorem refresh_respects_writes (it : Iteration) (scenario : Scenario)
    (rows : List (Table String String)) (clock : ℚ) :
    logRespects (refreshNames scenario) (it.runIteration scenario rows clock).log
      (startScope it scenario rows) :=
  (Good.executeSteps build_covers scenario.steps (List.Subset.refl _) none _
    (start_tracks rows clock)).log

end Engine
