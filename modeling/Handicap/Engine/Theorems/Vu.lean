import Handicap.Engine.Theorems.Parallel
import Handicap.Engine.Vu

open Store

namespace Engine

-- A run that is cut by a token is cut after the token has been cancelled.
def CutByToken (it : Iteration) (r : Run) : Prop :=
  r.flow = .ok .aborted → it.isCancelled r.strand

section

variable {it : Iteration} {s s' : Strand} {r : Run} {k : Strand → Run} {loopIndex : Option ℕ}
  {thinkTime : Option ThinkTime} {log : List Event}

theorem isCancelled_mono (h : it.isCancelled s) (hc : s.clock ≤ s'.clock) : it.isCancelled s' := by
  unfold Iteration.isCancelled at h ⊢
  cases ht : it.cancelledAt
  case none => simp [ht] at h
  case some time =>
    rw [ht, Option.any_some, decide_eq_true_iff] at h
    rw [Option.any_some, decide_eq_true_iff]
    exact h.trans hc

-- Pacing is cut by its token after that has been cancelled, and by the deadline when that has come.
theorem pace_cut (seconds : ℚ) :
    ((it.pace seconds s).1 = .cancelled → it.isCancelled (it.pace seconds s).2) ∧
    ((it.pace seconds s).1 = .deadlineReached → it.deadline ≤ (it.pace seconds s).2.clock) := by
  unfold Iteration.pace
  simp only
  cases Decidable.em (it.deadline ≤ (it.look s).clock)
  case inl hd =>
    rw [if_pos hd]
    exact ⟨fun h => (by cases h), fun _ => hd⟩
  case inr hd =>
    rw [if_neg hd]
    generalize it.look s = s
    cases Decidable.em (min seconds (it.deadline - s.clock) ≤ 0)
    case inl hs =>
      rw [if_pos hs]
      exact ⟨fun h => (by cases h), fun h => (by cases h)⟩
    case inr hs =>
      rw [if_neg hs]
      split
      case h_1 time ht =>
        obtain ⟨hc, _⟩ := Option.filter_eq_some_iff.mp ht
        refine ⟨fun _ => ?_, fun h => (by cases h)⟩
        simp [Iteration.isCancelled, hc]
      case h_2 =>
        split_ifs with hr
        case pos => exact ⟨fun h => (by cases h), fun _ => (by simp [min_eq_right hr.le])⟩
        case neg => exact ⟨fun h => (by cases h), fun h => (by cases h)⟩

theorem le_foldl_max {l : List ℚ} {m x : ℚ} (h : x ≤ m ∨ x ∈ l) : x ≤ l.foldl max m := by
  induction l generalizing m
  case nil => exact h.resolve_right List.not_mem_nil
  case cons y l ih =>
    refine ih ?_
    rcases h with hm | hl
    case inl => exact .inl (hm.trans (le_max_left ..))
    case inr =>
      refine (List.mem_cons.mp hl).imp_left fun hy => ?_
      exact hy ▸ le_max_right ..

theorem mergeAll_clock (branches : List BranchRun) (flow : StepFlow) (s : Strand) :
    (BranchRun.mergeAll branches flow s).strand.clock = s.clock := by
  induction branches generalizing flow s
  case nil => rfl
  case cons b branches ih =>
    rw [BranchRun.mergeAll]
    split
    case h_1 => rfl
    case h_2 => exact ih _ (s.merge b.entries)

namespace CutByToken

theorem next (h : CutByToken it r) (hk : ∀ s, CutByToken it (k s)) : CutByToken it (r.next k) := by
  unfold Run.next
  split
  case h_1 => exact hk _
  case h_2 => exact h

theorem guarded (hk : ∀ s, CutByToken it (k s)) : CutByToken it (it.guarded s k) := by
  unfold Iteration.guarded
  simp only
  split_ifs with hd hc
  case pos => exact fun h => by cases h
  case pos => exact fun _ => hc
  case neg => exact hk _

theorem of_continue : CutByToken it ⟨.ok .continue, s, log⟩ :=
  fun h => by cases h

theorem think : CutByToken it (it.think thinkTime s) := by
  cases thinkTime
  case none => exact of_continue
  case some tt =>
    intro h
    refine (pace_cut _).left ?_
    unfold Iteration.think at h
    simp only at h
    split at h
    case h_1 => cases h
    case h_2 hp => exact hp
    case h_3 => cases h

theorem executeHttp (step : HttpStep) (defaultThink : Option ThinkTime) :
    CutByToken it (it.executeHttp step loopIndex defaultThink s) := by
  unfold Iteration.executeHttp
  simp only
  split
  case h_1 => exact fun h => by cases h
  case h_2 => exact of_continue.next fun _ => think

theorem rounds {body : ℕ → Strand → Run} (hb : ∀ i s, CutByToken it (body i s)) (n i : ℕ) :
    CutByToken it (it.rounds body n i s) := by
  induction n generalizing i s
  case zero => exact of_continue
  case succ n ih => exact guarded fun s => (hb i s).next fun _ => ih (i + 1)

-- The step ends when the last of its branches does.
theorem join {id : String} {branches : List BranchRun} (h : ∀ b ∈ branches, CutByToken it b.run) :
    CutByToken it (BranchRun.join id branches s) := by
  intro ha
  have ho : BranchRun.outcome branches = .ok .aborted := BranchRun.mergeAll_outcome.symm.trans ha
  unfold BranchRun.outcome at ho
  split at ho
  case h_1 => cases ho
  case h_2 =>
    split_ifs at ho with hb
    case pos =>
      obtain ⟨b, hm, hb⟩ := hb
      have hl : b.run.strand.clock ∈ branches.map fun b => b.run.strand.clock :=
        List.mem_map_of_mem hm
      have hj : (BranchRun.join id branches s).strand.clock =
          (branches.map fun b => b.run.strand.clock).foldl max s.clock :=
        mergeAll_clock branches .continue _
      exact isCancelled_mono (h b hm hb) (hj ▸ le_foldl_max (.inr hl))
    all_goals cases ho

end CutByToken

mutual

-- By induction on the steps.
theorem executeOne_cutByToken (step : Step) (loopIndex defaultThink) (s : Strand) :
    CutByToken it (it.executeOne step loopIndex defaultThink s) := by
  cases step
  case http step => exact .executeHttp step defaultThink
  case loop id name repeats body =>
    exact .rounds (fun i => executeSteps_cutByToken body (some i) defaultThink) repeats 0
  case ifStep id name cond thenSteps elifs elseSteps =>
    rw [Iteration.executeOne]
    refine CutByToken.of_continue.next fun s => ?_
    cases selectBranch it.lib (it.context loopIndex _) cond elifs elseSteps
    case thenBranch => exact executeSteps_cutByToken thenSteps loopIndex defaultThink s
    case elif j     => exact executeElif_cutByToken elifs j loopIndex defaultThink s
    case elseBranch => exact executeSteps_cutByToken elseSteps loopIndex defaultThink s
    case none       => exact executeSteps_cutByToken elseSteps loopIndex defaultThink s
  case parallel id name branches =>
    exact .join (executeBranches_cutByToken branches 0 loopIndex s)

theorem executeSteps_cutByToken (steps : List Step) (loopIndex defaultThink) (s : Strand) :
    CutByToken it (it.executeSteps steps loopIndex defaultThink s) := by
  cases steps
  case nil => exact .of_continue
  case cons step steps =>
    exact .guarded fun s => (executeOne_cutByToken step loopIndex defaultThink s).next
      (executeSteps_cutByToken steps loopIndex defaultThink)

theorem executeElif_cutByToken (elifs : List (Condition × List Step)) (j : ℕ)
    (loopIndex defaultThink) (s : Strand) :
    CutByToken it (it.executeElif elifs j loopIndex defaultThink s) := by
  cases elifs
  case nil => exact .of_continue
  case cons elif elifs =>
    obtain ⟨cond, steps⟩ := elif
    cases j
    case zero   => exact executeSteps_cutByToken steps loopIndex defaultThink s
    case succ j => exact executeElif_cutByToken elifs j loopIndex defaultThink s

theorem executeBranches_cutByToken (branches : List (String × List Step)) (b : ℕ) (loopIndex)
    (s : Strand) : ∀ br ∈ it.executeBranches branches b loopIndex s, CutByToken it br.run := by
  cases branches
  case nil => exact List.forall_mem_nil _
  case cons branch branches =>
    obtain ⟨name, steps⟩ := branch
    rw [Iteration.executeBranches]
    exact List.forall_mem_cons.mpr ⟨executeSteps_cutByToken steps loopIndex none (s.fork b),
      executeBranches_cutByToken branches (b + 1) loopIndex s⟩

end

end

namespace VuEnv

variable {W V : Type*} {env : VuEnv W V} {index activations turns : ℕ} {vuId iterId : U32}
variable {w : W} {calls : List VuCall} {token : VuToken}

-- A token that cuts the steps or the pacing is cancelled, and pacing is cut at the deadline only.
-- Where the activations are not cancelled on their own, their tokens are as good as that of the
-- run.
structure Lawful (env : VuEnv W V) : Prop where
  stepsCut : ∀ token vuId iterId v w,
    (env.executeSteps token vuId iterId v w).1 = .ok .aborted →
      env.isCancelled (env.executeSteps token vuId iterId v w).2 token
  paceCut  : ∀ token w, (env.pace token w).1 = .cancelled → env.isCancelled (env.pace token w).2 token
  paceEnd  : ∀ token w, (env.pace token w).1 = .deadlineReached → env.expired (env.pace token w).2
  child    : ∀ n, (∀ w, env.retired n w = false) →
    env.executeSteps (.activation n) = env.executeSteps .run ∧
      env.pace (.activation n) = env.pace .run

-- The runs of the two VUs for the same number of turns, and the run of the first for one turn more:
-- where pacing ends at the deadline, the closed-loop VU sees it in its next turn only.
structure Locked (curve vu next : VuRun) : Prop where
  calls : curve.calls = vu.calls
  exit  : ∀ exit, vu.exit = some exit → curve.exit = some exit
  next  : ∀ exit, curve.exit = some exit → next.exit = some exit

theorem Locked.rfl {r : VuRun} : Locked r r r :=
  ⟨.refl _, fun _ => id, fun _ => id⟩

theorem Locked.after {curve vu next : VuRun} (h : Locked curve vu next) :
    Locked (curve.after calls) (vu.after calls) (next.after calls) where
  calls := congrArg (calls ++ ·) h.calls
  exit  := h.exit
  next  := h.next

-- A VU that starts a turn after the deadline does nothing any more.
theorem vuLoop_succ_expired (env : VuEnv W V) (vuId iterId : U32) (turns : ℕ)
    (h : env.expired w) : env.vuLoop vuId (turns + 1) iterId w = ⟨[], some .ok⟩ :=
  if_pos h

theorem vuLoop_expired (env : VuEnv W V) (vuId iterId : U32) (turns : ℕ) (h : env.expired w) :
    (env.vuLoop vuId turns iterId w).calls = [] ∧
    ∀ exit, (env.vuLoop vuId turns iterId w).exit = some exit → exit = .ok := by
  cases turns
  case zero => exact ⟨rfl, by simp [vuLoop]⟩
  case succ turns => simp [env.vuLoop_succ_expired vuId iterId turns h, eq_comm]

theorem iteration_cut (l : env.Lawful) {w' : W}
    (h : env.iteration token vuId iterId w = (calls, .flow .aborted, w')) :
    env.isCancelled w' token := by
  unfold iteration at h
  simp only at h
  split at h
  case h_1 => simp at h
  case h_2 draws v w _ =>
    split at h
    case h_1 => simp at h
    case h_2 flow w₁ he =>
      have hc := l.stepsCut token vuId iterId v w
      simp only [Prod.mk.injEq, IterationEnd.flow.injEq] at h
      have ⟨_, hf, hw⟩ := h
      rw [he, hf, hw] at hc
      exact hc rfl

theorem deactivate_of_cancelled {parked : VuRun} (h : env.cancelled w) :
    env.deactivate w parked = ⟨[], some .aborted⟩ :=
  if_pos h

section

variable (l : env.Lawful) (hd : ∀ w, index < env.desired w) (hr : ∀ n w, env.retired n w = false)

include hr in
theorem isCancelled_activation (n : ℕ) (w : W) :
    env.isCancelled w (.activation n) = env.cancelled w := by
  simp [isCancelled, hr]

include l hr in
theorem iteration_activation (n : ℕ) :
    env.iteration (.activation n) vuId iterId w = env.iteration .run vuId iterId w := by
  unfold iteration
  rw [(l.child n (hr n)).left]

include l hd hr

theorem curveTurn_locked {next : Bool → ℕ → U32 → W → VuRun} (turns : ℕ)
    (ih : ∀ n iterId w, Locked (next false n iterId w) (env.vuLoop vuId turns iterId w)
      (env.vuLoop vuId (turns + 1) iterId w)) :
    Locked (env.curveTurn index vuId next false activations iterId w)
      (env.vuLoop vuId (turns + 1) iterId w) (env.vuLoop vuId (turns + 2) iterId w) := by
  have hd w : ¬env.desired w ≤ index := Nat.not_le.mpr (hd w)
  change Locked _ (env.vuTurn vuId (env.vuLoop vuId turns) iterId w)
    (env.vuTurn vuId (env.vuLoop vuId (turns + 1)) iterId w)
  simp only [curveTurn, vuTurn, isCancelled_activation hr, iteration_activation l hr,
    (l.child _ (hr _)).right, hd, Bool.false_eq_true, if_false]
  cases env.expired w
  case true => exact .rfl
  case false =>
    cases hc : env.cancelled w
    case true => simp only [deactivate_of_cancelled hc]; exact .rfl
    case false =>
      cases hi : env.iteration .run vuId iterId w
      case mk calls r =>
        have ⟨result, w⟩ := r
        cases result
        case exhausted => exact .rfl
        case error => exact .rfl
        case flow flow =>
          cases flow
          case deadlineReached => exact .rfl
          case aborted =>
            simp only [deactivate_of_cancelled (iteration_cut l hi)]
            exact ⟨by simp [VuRun.after], fun _ => id, fun _ => id⟩
          case «continue» =>
            simp only [Bool.false_eq_true, if_false]
            cases env.thinks
            case false => exact (ih _ _ w).after
            case true =>
              have hc := l.paceCut .run w
              have he := l.paceEnd .run w
              cases hp : env.pace .run w
              case mk outcome w =>
                rw [hp] at hc he
                cases outcome
                case slept => exact (ih _ _ w).after
                case cancelled =>
                  simp only [if_true, deactivate_of_cancelled (hc rfl)]
                  exact ⟨by simp [VuRun.after], fun _ => id, fun _ => id⟩
                case deadlineReached =>
                  have ⟨hcalls, hexit⟩ := env.vuLoop_expired vuId (iterId + 1) turns (he rfl)
                  refine ⟨?_, fun exit h => ?_, fun exit h => ?_⟩
                  · simp [VuRun.after, hcalls]
                  · cases hexit exit h
                    rfl
                  · have hn := env.vuLoop_succ_expired vuId (iterId + 1) turns (he rfl)
                    simpa [VuRun.after, hn] using h

theorem curveLoop_locked (turns : ℕ) :
    ∀ n iterId w, Locked (env.curveLoop index vuId turns false n iterId w)
      (env.vuLoop vuId turns iterId w) (env.vuLoop vuId (turns + 1) iterId w) := by
  induction turns
  case zero => exact fun _ _ _ => ⟨rfl, by simp [vuLoop], by simp [curveLoop]⟩
  case succ turns ih => exact fun n iterId w => curveTurn_locked l hd hr turns ih

-- A VU that is parked at first activates at once.
theorem curveLoop_parked_locked (turns : ℕ) (h : ¬(env.cancelled w ∧ env.expired w)) :
    Locked (env.curveLoop index vuId turns true 0 0 w) (env.vuLoop vuId turns 0 w)
      (env.vuLoop vuId (turns + 1) 0 w) := by
  cases turns
  case zero => exact ⟨rfl, by simp [vuLoop], by simp [curveLoop]⟩
  case succ turns =>
    cases hc : env.cancelled w
    case true =>
      have he : env.expired w = false := by simpa [hc] using h
      simp only [curveLoop, vuLoop, curveTurn, vuTurn, parkGate, hc, he, if_true, if_false,
        Bool.false_eq_true]
      exact .rfl
    case false =>
      cases he : env.expired w
      case true =>
        simp only [curveLoop, vuLoop, curveTurn, vuTurn, parkGate, hc, he, if_true, if_false,
          Bool.false_eq_true]
        exact .rfl
      case false =>
        have hg : env.parkGate index w = .inr w := by
          simp [parkGate, hc, he, Nat.not_le.mpr (hd w)]
        have hp : env.curveLoop index vuId (turns + 1) true 0 0 w =
            env.curveLoop index vuId (turns + 1) false 1 0 w := by
          simp only [curveLoop, curveTurn, hg]
          rfl
        rw [hp]
        exact curveLoop_locked l hd hr (turns + 1) 1 0 w

end

-- The two VUs make the same calls, turn by turn, and end alike.
def Lockstep (env : VuEnv W V) (index : ℕ) (vuId : U32) (w : W) : Prop :=
  (∀ turns, (env.runVuCurve index vuId turns w).calls = (env.runVu vuId turns w).calls) ∧
  ∀ exit, (∃ turns, (env.runVuCurve index vuId turns w).exit = some exit) ↔
    ∃ turns, (env.runVu vuId turns w).exit = some exit

-- The two look at the clock and at the token of the run in different orders before they start.
theorem lockstep_iff (l : env.Lawful) (hd : ∀ w, index < env.desired w)
    (hr : ∀ n w, env.retired n w = false) :
    env.Lockstep index vuId w ↔
      ¬((env.build w).1 ∧ env.cancelled (env.build w).2 ∧ env.expired (env.build w).2) := by
  unfold Lockstep runVuCurve runVu
  cases hb : env.build w
  case mk built w =>
    cases built
    case false => simp
    case true =>
      constructor
      · intro h hn
        have ⟨hc, he⟩ := hn.right
        have h1 : ∃ turns, (env.curveLoop index vuId turns true 0 0 w).exit = some .aborted :=
          ⟨1, by simp [curveLoop, curveTurn, parkGate, hc]⟩
        have ⟨turns, hx⟩ := (h.right .aborted).mp h1
        simpa using (env.vuLoop_expired vuId 0 turns he).right _ hx
      · intro h
        have hn : ¬(env.cancelled w ∧ env.expired w) := by simpa using h
        have hl turns : Locked (env.curveLoop index vuId turns true 0 0 w)
            (env.vuLoop vuId turns 0 w) (env.vuLoop vuId (turns + 1) 0 w) :=
          curveLoop_parked_locked l hd hr turns hn
        refine ⟨fun turns => (hl turns).calls, fun exit => ⟨?_, ?_⟩⟩
        · rintro ⟨turns, hx⟩
          exact ⟨turns + 1, (hl turns).next exit hx⟩
        · rintro ⟨turns, hx⟩
          exact ⟨turns, (hl turns).exit exit hx⟩

end VuEnv

namespace Surroundings

variable (o : Surroundings) (index : ℕ)

-- A token is cancelled when its time has come.
theorem isCancelled_vuEnv (token : VuToken) (w : VuState) (vuId iterId : U32) (w' : VuState) :
    (o.vuEnv index).isCancelled w token =
      (o.iteration index token vuId iterId w').isCancelled w.strand := by
  cases token
  case run => rfl
  case activation n =>
    change (o.cancelledAt.any (· ≤ w.clock) || (o.retiredAt index n).any (· ≤ w.clock)) =
      (o.cancelledAt.merge min (o.retiredAt index n)).any (· ≤ w.clock)
    cases o.cancelledAt <;> cases o.retiredAt index n <;> simp

-- An activation that is never retired has the token of the run.
theorem cancelledAtOf_activation {n : ℕ} (h : ∀ w, (o.vuEnv index).retired n w = false) :
    o.cancelledAtOf index (.activation n) = o.cancelledAt := by
  have hn : o.retiredAt index n = none := by
    refine Option.eq_none_iff_forall_ne_some.mpr fun time ht => ?_
    have hw : (o.retiredAt index n).any (· ≤ time) = false :=
      h ⟨⟨[], 0, 0, time, ∅, none⟩, 0, fun _ => 0⟩
    simp [ht] at hw
  rw [cancelledAtOf, hn, Option.merge_none_right]

theorem vuEnv_lawful : (o.vuEnv index).Lawful where
  stepsCut token vuId iterId v w h := by
    rw [o.isCancelled_vuEnv index token _ vuId iterId w]
    exact executeSteps_cutByToken _ _ _ _ h
  paceCut token w h := by
    rw [o.isCancelled_vuEnv index token _ 0 0 w]
    unfold vuEnv at h ⊢
    simp only at h ⊢
    cases ht : o.thinkTime
    case none =>
      rw [ht] at h
      cases h
    case some tt =>
      rw [ht] at h
      exact (pace_cut _).left h
  paceEnd token w h := by
    unfold vuEnv at h ⊢
    simp only [decide_eq_true_iff] at h ⊢
    cases ht : o.thinkTime
    case none =>
      rw [ht] at h
      cases h
    case some tt =>
      rw [ht] at h
      exact (pace_cut _).right h
  child n h := by
    have hi (vuId iterId w) : o.iteration index (.activation n) vuId iterId w =
        o.iteration index .run vuId iterId w := by
      unfold iteration
      rw [cancelledAtOf_activation o index h]
      rfl
    unfold vuEnv
    simp only [hi, and_self]

end Surroundings

end Engine
