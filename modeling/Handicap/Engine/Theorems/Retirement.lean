import Handicap.Engine.Theorems.Curve
import Mathlib.Algebra.BigOperators.Group.Finset.Basic

open Store

namespace Engine

-- The steps that a VU takes until it is active, if it is retired or parked.
def VuPc.stepsToActive : VuPc → ℕ
  | deactivating         => 6
  | deactivated          => 5
  | parkHead             => 4
  | parkClock            => 3
  | parkGate | waiting   => 2
  | activating           => 1
  | _                    => 0

-- An exit is counted, unless the VU is done.
def VuPc.failures : VuPc → ℕ
  | exited .aborted | exited .failed => 1
  | _                                => 0

-- The VU has died, or is about to.
def VuPc.isDead : VuPc → Bool
  | leaving .failed | exited .failed => true
  | _                                => false

theorem VuPc.failures_of_isRunning {pc : VuPc} (h : pc.isRunning) : pc.failures = 0 := by
  cases pc
  case exited => cases h
  all_goals rfl

namespace Curve

variable {plan : CurvePlan} {s s' : Curve} {e : CurveEvent} {events l : List CurveEvent}
variable {i index token now desired cap : ℕ} {pc old : VuPc} {r : TickRecord}

-- What the mode allows a tick to cancel.
def Justified (plan : CurvePlan) (ticks : List TickRecord) (r : TickRecord) : Prop :=
  match plan.mode with
  | .immediate           => ∀ i token, (i, token) ∈ r.cancelled → r.desired ≤ i
  | .graceful (some cap) => Expires cap ticks r
  | .graceful none       => r.cancelled = []

structure Logged (plan : CurvePlan) (s : Curve) : Prop where
  justified : Trace.Along (Justified plan) s.ticks
  cancelled : s.cancelled = s.ticks.flatMap (·.cancelled.map Prod.snd)

theorem Timed.expires (c : Timed plan s) (hs : s.supervisor = .ticked now desired) :
    Expires cap s.ticks ⟨now, desired, s.slab, s.expiredTokens desired cap now⟩ := by
  intro i token h
  have ⟨hd, _, hsl, t, ht, hc⟩ := mem_expiredTokens h
  have ⟨pre, q, mid, he, hq, hl⟩ := c.lingers hs hd hsl ht
  exact ⟨pre, q, mid, he, hq ▸ hc, hl.concat hd hsl⟩

namespace Logged

theorem new : Logged plan .new where
  justified := Trace.along_nil
  cancelled := rfl

theorem cancelTokens {tokens : List (ℕ × ℕ)} (c : Logged plan s)
    (h : Justified plan s.ticks ⟨now, desired, s.slab, tokens⟩) :
    Logged plan (s.cancelTokens now desired tokens) where
  justified := Trace.along_concat.mpr ⟨c.justified, h⟩
  cancelled := by simp [Curve.cancelTokens, c.cancelled]

theorem retire (c : Logged plan s) (ct : Timed plan s) (hs : s.supervisor = .ticked now desired) :
    Logged plan (s.retire plan now desired) := by
  unfold Curve.retire
  split
  case h_1 hm =>
    refine c.cancelTokens ?_
    simp only [Justified, hm]
    exact fun i token h => (mem_undesiredTokens h).left
  case h_2 cap hm =>
    have c : Logged plan (s.cancelTokens now desired (s.expiredTokens desired cap now)) :=
      c.cancelTokens (by simpa only [Justified, hm] using ct.expires hs)
    exact ⟨c.justified, c.cancelled⟩
  case h_3 hm =>
    refine c.cancelTokens ?_
    simp only [Justified, hm]

theorem step (c : Logged plan s) (ct : Timed plan s) (h : Moves plan s e s') :
    Logged plan s' := by
  cases h
  case retires hs =>
    have c := c.retire ct hs
    exact ⟨c.justified, c.cancelled⟩
  all_goals exact ⟨c.justified, c.cancelled⟩

end Logged

-- The failed VUs are those that have exited like this. A VU is aborted only if the run is.
structure Failing (s : Curve) : Prop where
  failed  : s.failed = ∑ i ∈ Finset.range s.spawned, (s.vus i).pc.failures
  aborted : ∀ i, (s.vus i).pc = .exited .aborted → s.runCancelled
  leaving : ∀ i, (s.vus i).pc ≠ .leaving .aborted

@[simp]
theorem pc_goto : ((s.goto index pc).vus i).pc = if i = index then pc else (s.vus i).pc := by
  simp only [goto, vus_update]
  split_ifs <;> rfl

@[simp]
theorem pc_exit {exit : VuExit} :
    ((s.exit index exit).vus i).pc = if i = index then .exited exit else (s.vus i).pc :=
  pc_goto

@[simp]
theorem pc_release : ((s.release index).vus i).pc = (s.vus i).pc := by
  simp only [release, vus_update]
  split_ifs
  case pos h => rw [h]
  case neg => rfl

theorem retire_frame (plan : CurvePlan) (s : Curve) (now desired : ℕ) :
    (s.retire plan now desired).vus = s.vus ∧
    (s.retire plan now desired).spawned = s.spawned ∧
    (s.retire plan now desired).failed = s.failed ∧
    (s.retire plan now desired).runCancelled = s.runCancelled ∧
    (s.retire plan now desired).tokens = s.tokens := by
  unfold Curve.retire
  split <;> exact ⟨rfl, rfl, rfl, rfl, rfl⟩

namespace Failing

theorem new : Failing .new where
  failed  := rfl
  aborted := fun _ h => by simp [Curve.new] at h
  leaving := fun _ h => by simp [Curve.new] at h

theorem locally (c : Failing s) {v : Vu} (hi : index < s.spawned)
    (hz : (s.vus index).pc.failures = 0)
    (hv : s'.vus = Function.update s.vus index v) (hf : s'.failed = s.failed + v.pc.failures)
    (hsp : s'.spawned = s.spawned) (hr : s'.runCancelled = s.runCancelled)
    (ha : v.pc = .exited .aborted → s.runCancelled) (hn : v.pc ≠ .leaving .aborted) :
    Failing s' := by
  refine ⟨?_, fun i => ?_, fun i => ?_⟩
  · have hm := Finset.mem_range.mpr hi
    have hs := Finset.add_sum_erase _ (fun i => (s.vus i).pc.failures) hm
    have hs' := Finset.add_sum_erase _ (fun i => (s'.vus i).pc.failures) hm
    have he : ∑ i ∈ (Finset.range s.spawned).erase index, (s'.vus i).pc.failures =
        ∑ i ∈ (Finset.range s.spawned).erase index, (s.vus i).pc.failures := by
      refine Finset.sum_congr rfl fun i h => ?_
      rw [hv, vus_update, if_neg (Finset.ne_of_mem_erase h)]
    have hn : (s'.vus index).pc.failures = v.pc.failures := by rw [hv, vus_update, if_pos rfl]
    have hc := c.failed
    rw [hsp]
    omega
  · rw [hv, vus_update, hr]
    split_ifs
    case pos => exact ha
    case neg => exact c.aborted i
  · rw [hv, vus_update]
    split_ifs
    case pos => exact hn
    case neg => exact c.leaving i

theorem broadcast (c : Failing s) (cs : Slotted plan s) : Failing (s.broadcast now desired) := by
  have hv i : ((s.broadcast now desired).vus i).pc = (s.vus i).pc ∨
      (s.vus i).pc = .unspawned ∧ ((s.broadcast now desired).vus i).pc = .building := by
    simp only [Curve.broadcast, spawn]
    split_ifs
    case pos h => exact .inr ⟨cs.unspawned i h.left, rfl⟩
    case neg => exact .inl rfl
  have hf i : ((s.broadcast now desired).vus i).pc.failures = (s.vus i).pc.failures := by
    cases hv i
    case inl h => rw [h]
    case inr h => rw [h.left, h.right]; rfl
  refine ⟨?_, fun i h => ?_, fun i h => ?_⟩
  · simp only [hf]
    refine c.failed.trans (Finset.sum_subset (Finset.range_mono (le_max_left ..)) ?_)
    intro i _ hi
    rw [cs.unspawned i (by simpa using hi)]
    rfl
  · cases hv i
    case inl hv => exact c.aborted i (hv.symm.trans h)
    case inr hv => simp [hv.right] at h
  · cases hv i
    case inl hv => exact c.leaving i (hv.symm.trans h)
    case inr hv => simp [hv.right] at h

theorem step (c : Failing s) (cs : Slotted plan s) (h : Moves plan s e s') : Failing s' := by
  cases h
  case stays => exact c
  case ends => exact ⟨c.failed, c.aborted, c.leaving⟩
  case ticks => exact c.broadcast cs
  case retires now desired _ =>
    have ⟨hv, hsp, hf, hr, _⟩ := retire_frame plan s now desired
    refine ⟨?_, ?_, ?_⟩
    · simpa only [hv, hsp, hf] using c.failed
    · simpa only [hv, hr] using c.aborted
    · simpa only [hv] using c.leaving
  case cancels => exact ⟨c.failed, fun _ _ => rfl, c.leaving⟩
  case goes index pc hr _ hp _ _ =>
    have hf : pc.failures = 0 ∧ pc ≠ .exited .aborted ∧ pc ≠ .leaving .aborted := by
      cases hp
      case inl hp =>
        refine ⟨VuPc.failures_of_isRunning hp, fun he => ?_, fun he => ?_⟩ <;>
        · rw [he] at hp
          cases hp
      case inr hp => simp [hp, VuPc.failures]
    exact c.locally (cs.spawned_of_isRunning hr) (VuPc.failures_of_isRunning hr) rfl
      (hf.left ▸ rfl) rfl rfl (fun h => (hf.right.left h).elim) hf.right.right
  case exits index exit hr _ hc _ _ =>
    refine c.locally (cs.spawned_of_isRunning hr) (VuPc.failures_of_isRunning hr) rfl ?_ rfl rfl
      (fun h => hc (by simpa using h)) (by simp)
    cases exit <;> rfl
  case activates index _ hp =>
    have hi : index < s.spawned := cs.spawned_of_ne (by simp [hp])
    exact c.locally hi (hp ▸ rfl) rfl rfl rfl rfl (by simp) (by simp)
  case starts index _ hp _ =>
    have hi : index < s.spawned := cs.spawned_of_ne (by simp [hp])
    exact c.locally hi (hp ▸ rfl) rfl rfl rfl rfl (by simp) (by simp)
  case continues index hp =>
    have hi : index < s.spawned := cs.spawned_of_ne (by simp [hp])
    exact c.locally hi (hp ▸ rfl) rfl rfl rfl rfl (by simp) (by simp)
  case isCut index hp =>
    have hi : index < s.spawned := cs.spawned_of_ne (by simp [hp])
    exact c.locally hi (hp ▸ rfl) rfl rfl rfl rfl (by simp) (by simp)
  case stops index _ exit hp he _ =>
    have hi : index < s.spawned := cs.spawned_of_ne (by simp [hp])
    exact c.locally hi (hp ▸ rfl) rfl rfl rfl rfl (by simp) (by simpa using he)
  case deactivates index _ hp =>
    have hi : index < s.spawned := cs.spawned_of_ne (by simp [hp])
    refine c.locally (v := ⟨.deactivated, none, (s.vus index).iterId⟩) hi (hp ▸ rfl) ?_ rfl rfl rfl
      (by simp) (by simp)
    simp [goto, release]
  case leaves index _ exit hp =>
    have hi : index < s.spawned := cs.spawned_of_ne (by simp [hp])
    refine c.locally (v := ⟨.exited exit, none, (s.vus index).iterId⟩) hi (hp ▸ rfl) ?_ ?_ rfl rfl
      ?_ (by simp)
    · simp [Curve.exit, goto, release]
    · cases exit <;> rfl
    · intro h
      have he : exit = .aborted := by simpa using h
      exact (c.leaving index (he ▸ hp)).elim

end Failing

@[simp]
theorem pc_activate : ((s.activate index).vus i).pc =
    if i = index then .activeClock else (s.vus i).pc := by
  simp only [activate, vus_update]
  split_ifs <;> rfl

@[simp]
theorem pc_startIteration : ((s.startIteration index).vus i).pc =
    if i = index then .iterating else (s.vus i).pc :=
  pc_goto

@[simp]
theorem pc_iterated_continue : ((s.iterated index (.flow .continue)).vus i).pc =
    if i = index then .recheck else (s.vus i).pc := by
  simp only [iterated, vus_update]
  split_ifs <;> rfl

-- A step of a task concerns no VU but its own, and the supervisor those only that it spawns.
theorem pc_step (cs : Slotted plan s) (h : Moves plan s e s') (he : e.index? ≠ some i) :
    (s'.vus i).pc = (s.vus i).pc ∨
      (s.vus i).pc = .unspawned ∧ (s'.vus i).pc = .building := by
  have own {index : ℕ} (ho : e.index? = some index) : i ≠ index := fun hi => he (hi ▸ ho)
  cases h
  case ticks =>
    simp only [Curve.broadcast, spawn]
    split_ifs
    case pos h => exact .inr ⟨cs.unspawned i h.left, rfl⟩
    case neg => exact .inl rfl
  case retires now desired _ =>
    exact .inl (congrArg (fun v => (v i).pc) (retire_frame plan s now desired).left)
  case stays => exact .inl rfl
  case ends => exact .inl rfl
  case cancels => exact .inl rfl
  case goes ho => simp [own ho]
  case exits ho _ => simp [own ho]
  all_goals simp [own rfl]

-- Only an error of the engine kills a VU.
theorem isDead_step (cs : Slotted plan s) (h : Moves plan s e s') (hd : (s'.vus i).pc.isDead) :
    (s.vus i).pc.isDead ∨ e = .iterated i .error ∨ e = .built i false := by
  cases Decidable.em (e.index? = some i)
  case inr he =>
    cases pc_step cs h he
    case inl hp => exact .inl (hp ▸ hd)
    case inr hp => rw [hp.right] at hd; cases hd
  case inl he =>
    cases h
    case stays => exact .inl hd
    case goes pc _ _ hp _ ho =>
      cases ho.symm.trans he
      cases hp
      case inl hp => cases pc <;> simp_all [VuPc.isDead, VuPc.isRunning]
      case inr hp => simp [hp, VuPc.isDead] at hd
    case exits exit _ _ _ ho hf =>
      cases ho.symm.trans he
      cases exit
      case failed => exact .inr (.inr (hf rfl))
      all_goals simp [VuPc.isDead] at hd
    case stops exit hp _ hf =>
      cases he
      cases exit
      case failed => exact .inr (.inl (by rw [hf rfl]))
      all_goals simp [VuPc.isDead] at hd
    case leaves exit hp =>
      cases he
      rw [hp]
      cases exit
      case failed => exact .inl rfl
      all_goals simp [VuPc.isDead] at hd
    case ends => cases he
    case ticks => cases he
    case retires => cases he
    case cancels => cases he
    all_goals
      cases he
      simp [VuPc.isDead] at hd

theorem run_slotted (plan : CurvePlan) (events : List CurveEvent) :
    Slotted plan (run plan events) :=
  Trace.invariant .new fun s e c => c.step (step_moves plan s e)

theorem run_isDead (h : ((run plan events).vus i).pc.isDead) :
    .iterated i .error ∈ events ∨ .built i false ∈ events := by
  induction events using List.reverseRecOn
  case nil => simp [run, Curve.new, VuPc.isDead] at h
  case append_singleton events e ih =>
    rw [run, Trace.run_concat] at h
    cases isDead_step (run_slotted plan events) (step_moves plan _ e) h
    case inl h => exact (ih h).imp (List.mem_append_left _) (List.mem_append_left _)
    case inr h => exact h.imp (fun h => by simp [h]) fun h => by simp [h]

-- The VU is desired and may go on, so that the run leaves it nothing but to become active.
def Resumes (plan : CurvePlan) (i : ℕ) (s : Curve) (e : CurveEvent) : Prop :=
  i < s.desired ∧ ¬s.runCancelled ∧ (e.index? = some i →
    ((s.vus i).pc = .waiting → e = .woken i) ∧
    ((s.vus i).pc ≠ .waiting → ∃ now < plan.duration, e = .vu i now))

theorem tokens_le : s.tokens ≤ (s.step plan e).tokens := by
  have h := step_moves plan s e
  generalize s.step plan e = s' at h
  cases h
  case activates => exact Nat.le_succ _
  case retires now desired _ =>
    have ⟨_, _, _, _, ht⟩ := retire_frame plan s now desired
    exact ht.ge
  all_goals exact le_rfl

-- The step of a VU that resumes brings it nearer to its activation.
theorem resume_step (h : Resumes plan i s e) (he : e.index? = some i)
    (hp : 0 < (s.vus i).pc.stepsToActive) :
    ((s.step plan e).vus i).pc.stepsToActive + 1 = (s.vus i).pc.stepsToActive ∧
      (((s.step plan e).vus i).pc.stepsToActive = 0 → (s.step plan e).slab i = some s.tokens) := by
  obtain ⟨hd, hc, ho⟩ := h
  obtain ⟨hw, hn⟩ := ho he
  cases Decidable.em ((s.vus i).pc = .waiting)
  case inl hp =>
    rw [hw hp]
    simp [step, hp, hd, VuPc.stepsToActive]
  case inr hne =>
    obtain ⟨now, hnow, he⟩ := hn hne
    rw [he]
    simp only [step]
    unfold vuStep
    split <;> rename_i hq
    case h_1 => simp [hq, hc, VuPc.stepsToActive]
    case h_2 => simp [hq, Nat.not_le.mpr hnow, VuPc.stepsToActive]
    case h_3 => simp [hq, Nat.not_le.mpr hd, VuPc.stepsToActive]
    case h_4 => simp [hq, activate, VuPc.stepsToActive]
    case h_9 => simp [hq, VuPc.stepsToActive]
    case h_10 => simp [hq, hc, VuPc.stepsToActive]
    case h_12 => cases hpc : (s.vus i).pc <;> simp_all [VuPc.stepsToActive]
    all_goals simp [hq, VuPc.stepsToActive] at hp

-- A VU that is retired or parked is active again with a new token as soon as it has taken its
-- steps, whatever the other tasks do.
theorem resumes (cs : Slotted plan s) (h : Trace.Meets (step plan) (Resumes plan i) s l)
    (hp : 0 < (s.vus i).pc.stepsToActive)
    (hl : (s.vus i).pc.stepsToActive ≤ l.countP (·.index? = some i)) :
    ∃ pre, pre <+: l ∧ ∃ token, (Trace.run (step plan) s pre).slab i = some token ∧
      s.tokens ≤ token := by
  induction l generalizing s
  case nil => exact (Nat.not_lt.mpr hl hp).elim
  case cons e l ih =>
    have ⟨he, h⟩ := Trace.meets_cons.mp h
    have cs' : Slotted plan (s.step plan e) := cs.step (step_moves plan s e)
    have ht : s.tokens ≤ (s.step plan e).tokens := tokens_le
    have next (hp : 0 < ((s.step plan e).vus i).pc.stepsToActive)
        (hl : ((s.step plan e).vus i).pc.stepsToActive ≤ l.countP (·.index? = some i)) :
        ∃ pre, pre <+: e :: l ∧ ∃ token, (Trace.run (step plan) s pre).slab i = some token ∧
          s.tokens ≤ token := by
      have ⟨pre, hpre, token, hs, hle⟩ := ih cs' h hp hl
      exact ⟨e :: pre, List.cons_prefix_cons.mpr ⟨rfl, hpre⟩, token, hs, ht.trans hle⟩
    cases Decidable.em (e.index? = some i)
    case inl ho =>
      have ⟨hn, hz⟩ := resume_step he ho hp
      rw [List.countP_cons_of_pos (by simpa using ho)] at hl
      cases Nat.eq_zero_or_pos ((s.step plan e).vus i).pc.stepsToActive
      case inl h0 => exact ⟨[e], by simp, s.tokens, hz h0, le_rfl⟩
      case inr hp => exact next hp (by omega)
    case inr ho =>
      rw [List.countP_cons_of_neg (by simpa using ho)] at hl
      have hpc : ((s.step plan e).vus i).pc = (s.vus i).pc := by
        cases pc_step cs (step_moves plan s e) ho
        case inl hpc => exact hpc
        case inr hpc => simp [hpc.left, VuPc.stepsToActive] at hp
      exact next (hpc ▸ hp) (hpc ▸ hl)

structure Governed (plan : CurvePlan) (s : Curve) : Prop where
  slotted : Slotted plan s
  timed   : Timed plan s
  logged  : Logged plan s
  failing : Failing s

theorem run_governed (plan : CurvePlan) (events : List CurveEvent) :
    Governed plan (run plan events) := by
  refine Trace.invariant ⟨.new, .new, .new, .new⟩ fun s e c => ?_
  have h := step_moves plan s e
  exact ⟨c.slotted.step h, c.timed.step c.slotted h, c.logged.step c.timed h,
    c.failing.step c.slotted h⟩

theorem Slotted.slab_isSome_iff (c : Slotted plan s) :
    (s.slab i).isSome ↔ (s.vus i).pc.isActive := by
  rw [c.slab i, Vu.slot]
  split_ifs
  case pos h => simpa [h] using c.act i h
  case neg h => simpa using h

-- The slots of the VUs are filled just while the VUs are active. A tick cancels tokens that it has
-- seen, of VUs that are not desired. In capped graceful mode all ticks for the time of the cap have
-- seen them like this. A VU that is retired has a new token when it is active again, and only VUs
-- that meet an error, or are aborted with their run, are counted as failed.
theorem activation_retirement (plan : CurvePlan) (events : List CurveEvent) :
    (∀ i, ((run plan events).slab i).isSome ↔ ((run plan events).vus i).pc.isActive) ∧
    (run plan events).cancelled =
      (run plan events).ticks.flatMap (·.cancelled.map Prod.snd) ∧
    (∀ cap, plan.mode = .graceful (some cap) →
      Trace.Along (Expires cap) (run plan events).ticks) ∧
    (plan.mode = .immediate → ∀ r ∈ (run plan events).ticks,
      ∀ i token, (i, token) ∈ r.cancelled → r.slab i = some token ∧ r.desired ≤ i) ∧
    (∀ i l, 0 < ((run plan events).vus i).pc.stepsToActive →
      Trace.Meets (step plan) (Resumes plan i) (run plan events) l →
      ((run plan events).vus i).pc.stepsToActive ≤ l.countP (·.index? = some i) →
      ∃ pre, pre <+: l ∧ ∃ token, (run plan (events ++ pre)).slab i = some token ∧
        token ∉ (run plan events).cancelled ∧
        ∀ r ∈ (run plan events).ticks, ∀ j, r.slab j ≠ some token) ∧
    (run plan events).failed =
      ∑ i ∈ Finset.range (run plan events).spawned, ((run plan events).vus i).pc.failures ∧
    (∀ i, ((run plan events).vus i).pc = .exited .aborted → (run plan events).runCancelled) ∧
    (∀ i, ((run plan events).vus i).pc = .exited .failed →
      .iterated i .error ∈ events ∨ .built i false ∈ events) := by
  have ⟨cs, ct, cl, cf⟩ := run_governed plan events
  refine ⟨fun i => cs.slab_isSome_iff, cl.cancelled, fun cap hm => ?_, fun hm r hr i token h => ?_,
    ?_, cf.failed, cf.aborted, fun i h => run_isDead (by rw [h]; rfl)⟩
  · exact cl.justified.mono fun pre r h => by simpa only [Justified, hm] using h
  · have ⟨_, hj⟩ := cl.justified.of_mem hr
    simp only [Justified, hm] at hj
    exact ⟨cs.logged r hr i token h, hj i token h⟩
  · intro i l hp h hl
    have ⟨pre, hpre, token, hs, ht⟩ := resumes cs h hp hl
    have hnew : ∀ r ∈ (run plan events).ticks, ∀ j, r.slab j ≠ some token :=
      fun r hr j hj => Nat.not_lt.mpr ht (cs.seen r hr j token hj)
    refine ⟨pre, hpre, token, ?_, fun hc => ?_, hnew⟩
    · rw [run, Trace.run_append]
      exact hs
    · have ⟨r, hr, j, hj⟩ := cs.cancelled token hc
      exact hnew r hr j hj

-- A VU that is desired up to the second 1 and again from the second 2 on.
def dip : CurvePlan where
  maxVus   := 1
  rate t   := if t = 1 then 0 else 1
  duration := 10
  vuOffset := 0
  mode     := .immediate
  thinks   := false

-- Its iteration is cut, it parks and it is desired again.
def dipped : List CurveEvent :=
  [.tick 0, .retire, .built 0 true] ++ List.replicate 7 (.vu 0 0) ++
    [.tick 1, .retire, .iterated 0 (.flow .aborted)] ++ List.replicate 5 (.vu 0 1) ++ [.tick 2]

theorem activation_retirement_dip :
    (run dip dipped).cancelled = [0] ∧ ((run dip dipped).vus 0).pc = .waiting ∧
    ∃ pre, pre <+: [.woken 0, .vu 0 2] ∧ ∃ token,
      (run dip (dipped ++ pre)).slab 0 = some token ∧ token ∉ (run dip dipped).cancelled ∧
        ∀ r ∈ (run dip dipped).ticks, ∀ j, r.slab j ≠ some token := by
  obtain ⟨-, -, -, -, hresumes, -⟩ := activation_retirement dip dipped
  refine ⟨by decide, by decide, hresumes 0 [.woken 0, .vu 0 2] (by decide) ?_ (by decide)⟩
  refine Trace.meets_cons.mpr ⟨?_, Trace.meets_cons.mpr ⟨?_, Trace.meets_nil⟩⟩
  case refine_1 => exact ⟨by decide, by decide, fun _ => ⟨fun _ => rfl, fun h => absurd rfl h⟩⟩
  case refine_2 =>
    exact ⟨by decide, by decide, fun _ =>
      ⟨fun h => absurd h (by decide), fun _ => ⟨2, by decide, rfl⟩⟩⟩

end Curve

end Engine
