import Handicap.Engine.Theorems.Closed
import Handicap.Engine.Theorems.OpenLoop
import Handicap.Engine.Theorems.Retirement
import Handicap.Engine.Theorems.Vu

open Store Serial

namespace Engine

-- The VU starts no iteration any more.
def VuPc.isEnding : VuPc → Bool
  | leaving _ | exited _ => true
  | _                    => false

namespace Curve

variable {plan : CurvePlan} {s s' : Curve} {e : CurveEvent} {events : List CurveEvent}
variable {i index : ℕ}

theorem isRunning_frame {pc : VuPc} (h : pc.isRunning) :
    pc ≠ .iterating ∧ pc.isEnding = false := by
  cases pc <;> simp_all [VuPc.isRunning, VuPc.isEnding]

theorem retire_started (plan : CurvePlan) (s : Curve) (now desired : ℕ) :
    (s.retire plan now desired).started = s.started := by
  unfold Curve.retire
  split <;> rfl

-- What an event can do to the iterations of a VU.
inductive Steps (s : Curve) (e : CurveEvent) (i : ℕ) (s' : Curve) : Prop
  -- The VU is in no iteration that it has not been in before, and it has left none unless it ends
  -- or has been cut off.
  | keeps (hi : (s'.vus i).iterId = (s.vus i).iterId) (hl : s.started ⊆ s'.started)
      (hn : numbers i s'.started = numbers i s.started)
      (hb : (s'.vus i).pc = .iterating → (s.vus i).pc = .iterating)
      (hx : (s'.vus i).pc ≠ .iterating → (s'.vus i).pc.isEnding = false →
        ¬(e = .iterated i (.flow .aborted) ∧ (s.vus i).pc = .iterating) →
        (s.vus i).pc ≠ .iterating ∧ (s.vus i).pc.isEnding = false)
  | starts (now : ℕ) (he : e = .vu i now) (hp : (s.vus i).pc = .activeGate) (hd : i < s.desired)
      (hs : s' = s.startIteration i)
  | continues (he : e = .iterated i (.flow .continue)) (hp : (s.vus i).pc = .iterating)
      (hs : s' = s.iterated i (.flow .continue))

namespace Steps

theorem of_eq (hv : s'.vus i = s.vus i) (hl : s'.started = s.started) : Steps s e i s' :=
  .keeps (hv ▸ rfl) (hl ▸ List.Subset.refl _) (hl ▸ rfl) (hv ▸ id) (hv ▸ fun hp hx _ => ⟨hp, hx⟩)

theorem of_ne {v : Vu} (hi : i ≠ index) (hv : s'.vus = Function.update s.vus index v)
    (hl : s'.started = s.started ∨ ∃ k, s'.started = s.started ++ [(index, k)]) :
    Steps s e i s' := by
  have hv : s'.vus i = s.vus i := by rw [hv, Function.update_of_ne hi]
  cases hl
  case inl hl => exact of_eq hv hl
  case inr hl =>
    have ⟨k, hl⟩ := hl
    refine .keeps (hv ▸ rfl) ?_ ?_ (hv ▸ id) (hv ▸ fun hp hx _ => ⟨hp, hx⟩)
    · rw [hl]
      exact List.subset_append_left ..
    · rw [hl, numbers_concat_of_ne hi.symm]

-- The VU keeps its id and is in no iteration afterwards.
theorem of_self {v : Vu} (hv : s'.vus = Function.update s.vus index v)
    (hl : s'.started = s.started) (hi : v.iterId = (s.vus index).iterId) (hp : v.pc ≠ .iterating)
    (hx : v.pc.isEnding = false →
      ¬(e = .iterated index (.flow .aborted) ∧ (s.vus index).pc = .iterating) →
      (s.vus index).pc ≠ .iterating ∧ (s.vus index).pc.isEnding = false) : Steps s e i s' := by
  cases Decidable.em (i = index)
  case inr hi => exact of_ne hi hv (.inl hl)
  case inl he =>
    subst he
    have hv : s'.vus i = v := by rw [hv, Function.update_self]
    exact .keeps (hv ▸ hi) (hl ▸ List.Subset.refl _) (hl ▸ rfl) (fun h => (hp (hv ▸ h)).elim)
      (hv ▸ fun _ => hx)

end Steps

theorem steps_of_moves (cs : Slotted plan s) (h : Moves plan s e s') (i : ℕ) :
    Steps s e i s' := by
  cases h
  case stays => exact .of_eq rfl rfl
  case ends => exact .of_eq rfl rfl
  case cancels => exact .of_eq rfl rfl
  case retires now desired _ =>
    have ⟨hv, _⟩ := retire_frame plan s now desired
    exact .of_eq (congrFun hv i) (retire_started plan s now desired)
  case ticks now _ =>
    cases Decidable.em (s.spawned ≤ i ∧ i < plan.desiredAt now)
    case inl h =>
      have hv : (s.broadcast now (plan.desiredAt now)).vus i = { s.vus i with pc := .building } :=
        if_pos h
      have hp := cs.unspawned i h.left
      exact .keeps (hv ▸ rfl) (List.Subset.refl _) rfl (by simp [hv]) fun _ _ _ =>
        ⟨by simp [hp], hp ▸ rfl⟩
    case inr h => exact .of_eq (if_neg h) rfl
  case goes index pc hr _ hp _ _ =>
    refine .of_self rfl rfl rfl ?_ fun _ _ => isRunning_frame hr
    cases hp
    case inl hp => exact (isRunning_frame hp).left
    case inr hp => simp [hp]
  case exits index exit _ _ _ _ _ =>
    exact .of_self rfl rfl rfl (by simp) fun h => by simp [VuPc.isEnding] at h
  case activates index _ hp =>
    exact .of_self rfl rfl rfl (by simp) fun _ _ => ⟨by simp [hp], hp ▸ rfl⟩
  case starts index now hp hd =>
    cases Decidable.em (i = index)
    case inr hi => exact .of_ne hi rfl (.inr ⟨_, rfl⟩)
    case inl hi =>
      subst hi
      exact .starts now rfl hp hd rfl
  case continues index hp =>
    cases Decidable.em (i = index)
    case inr hi => exact .of_ne hi rfl (.inl rfl)
    case inl hi =>
      subst hi
      exact .continues rfl hp rfl
  case isCut index hp => exact .of_self rfl rfl rfl (by simp) fun _ h => (h ⟨rfl, hp⟩).elim
  case stops index _ exit _ _ _ =>
    exact .of_self rfl rfl rfl (by simp) fun h => by simp [VuPc.isEnding] at h
  case deactivates index _ hp =>
    have hv : ((s.release index).goto index .deactivated).vus =
        Function.update s.vus index ⟨.deactivated, none, (s.vus index).iterId⟩ := by
      simp [goto, release]
    exact .of_self hv rfl rfl (by simp) fun _ _ => ⟨by simp [hp], hp ▸ rfl⟩
  case leaves index _ exit hp =>
    have hv : ((s.release index).exit index exit).vus =
        Function.update s.vus index ⟨.exited exit, none, (s.vus index).iterId⟩ := by
      simp [Curve.exit, goto, release]
    exact .of_self hv rfl rfl (by simp) fun h => by simp [VuPc.isEnding] at h

-- An iteration of the VU has been cut off.
def IsCut (plan : CurvePlan) (i : ℕ) (events : List CurveEvent) : Prop :=
  ∃ pre, pre ++ [.iterated i (.flow .aborted)] <+: events ∧
    ((run plan pre).vus i).pc = .iterating

-- The event does not start an iteration of a VU after one that has been cut off.
def StartsUncut (plan : CurvePlan) (events : List CurveEvent) (e : CurveEvent) : Prop :=
  ∀ i now, e = .vu i now → ((run plan events).vus i).pc = .activeGate →
    i < (run plan events).desired → ¬IsCut plan i events

theorem isCut_concat : IsCut plan i (events ++ [e]) ↔ IsCut plan i events ∨
    e = .iterated i (.flow .aborted) ∧ ((run plan events).vus i).pc = .iterating := by
  constructor
  · rintro ⟨pre, hpre, hp⟩
    cases List.prefix_concat_iff.mp hpre
    case inr hpre => exact .inl ⟨pre, hpre, hp⟩
    case inl he =>
      have ⟨hpre, he⟩ := List.append_inj' he rfl
      exact .inr ⟨by simpa using he.symm, hpre ▸ hp⟩
  · rintro (⟨pre, hpre, hp⟩ | ⟨he, hp⟩)
    · exact ⟨pre, hpre.trans (List.prefix_append ..), hp⟩
    · exact ⟨events, he ▸ List.prefix_rfl, hp⟩

-- The ids of the iterations of a VU are the numbers of the iterations before them, unless one has
-- been cut off. Then the id of the VU is taken.
structure Numbered (plan : CurvePlan) (events : List CurveEvent) (s : Curve) (i : ℕ) : Prop where
  counts : Counts 32 i s.started
  idle   : (s.vus i).pc ≠ .iterating → (s.vus i).pc.isEnding = false → ¬IsCut plan i events →
    (s.vus i).iterId = Word.cast 32 (numbers i s.started).length
  busy   : (s.vus i).pc = .iterating → (i, (s.vus i).iterId) ∈ s.started ∧
    Word.add 32 (s.vus i).iterId 1 = Word.cast 32 (numbers i s.started).length
  cut    : IsCut plan i events →
    (s.vus i).pc ≠ .iterating ∧ (i, (s.vus i).iterId) ∈ s.started

namespace Numbered

theorem new : Numbered plan [] .new i where
  counts := counts_nil
  idle   := fun _ _ _ => rfl
  busy   := fun h => by simp [Curve.new] at h
  cut    := fun ⟨_, h, _⟩ => by simp at h

theorem step (c : Numbered plan events (run plan events) i) (hu : StartsUncut plan events e)
    (h : Steps (run plan events) e i s')
    (ha : e = .iterated i (.flow .aborted) → ((run plan events).vus i).pc = .iterating →
      (s'.vus i).pc ≠ .iterating) : Numbered plan (events ++ [e]) s' i := by
  cases h
  case keeps hi hl hn hb hx =>
    refine ⟨?_, fun hp he h => ?_, fun hp => ?_, fun h => ?_⟩
    · rw [Counts, hn]
      exact c.counts
    · obtain ⟨hc, hn'⟩ := not_or.mp fun ho => h (isCut_concat.2 ho)
      obtain ⟨hp, he⟩ := hx hp he hn'
      rw [hi, hn]
      exact c.idle hp he hc
    · obtain ⟨hm, hk⟩ := c.busy (hb hp)
      rw [hi, hn]
      exact ⟨hl hm, hk⟩
    · rw [hi]
      cases isCut_concat.1 h
      case inl h =>
        obtain ⟨hp, hm⟩ := c.cut h
        exact ⟨fun h => hp (hb h), hl hm⟩
      case inr h => exact ⟨ha h.left h.right, hl (c.busy h.right).left⟩
  case starts now he hp hd hs =>
    subst hs
    have hn := hu i now he hp hd
    have hk := c.idle (by simp [hp]) (hp ▸ rfl) hn
    refine ⟨c.counts.concat_self hk, by simp [startIteration, goto], fun _ => ?_, fun h => ?_⟩
    · simp [startIteration, goto, hk, Word.add_cast]
    · cases isCut_concat.1 h
      case inl h => exact (hn h).elim
      case inr h => simp [h.left] at he
  case continues he hp hs =>
    subst hs
    refine ⟨c.counts, fun _ _ _ => ?_, by simp [iterated], fun h => ?_⟩
    · simpa [iterated] using (c.busy hp).right
    · cases isCut_concat.1 h
      case inl h => exact ((c.cut h).left hp).elim
      case inr h => simp [he] at h

end Numbered

-- Only VUs that have been spawned start iterations, and the curve has no others.
structure Placed (plan : CurvePlan) (s : Curve) : Prop where
  spawned : s.spawned ≤ plan.maxVus.val
  started : ∀ e ∈ s.started, e.1 < s.spawned

theorem desiredAt_le (plan : CurvePlan) (now : ℕ) : plan.desiredAt now ≤ plan.maxVus.val := by
  unfold CurvePlan.desiredAt
  omega

theorem Placed.step (c : Placed plan s) (cs : Slotted plan s) (h : Moves plan s e s') :
    Placed plan s' := by
  cases h
  case ticks now _ =>
    exact ⟨Nat.max_le.mpr ⟨c.spawned, desiredAt_le plan now⟩,
      fun e he => (c.started e he).trans_le (le_max_left ..)⟩
  case retires now desired _ =>
    have ⟨_, hsp, _⟩ := retire_frame plan s now desired
    have hl : (s.retire plan now desired).started = s.started := by
      unfold Curve.retire
      split <;> rfl
    exact ⟨hsp ▸ c.spawned, by simpa only [hsp, hl] using c.started⟩
  case starts index _ hp _ =>
    refine ⟨c.spawned, fun e he => ?_⟩
    cases List.mem_append.mp he
    case inl he => exact c.started e he
    case inr he =>
      rw [List.mem_singleton.mp he]
      exact cs.spawned_of_ne (by simp [hp])
  all_goals exact ⟨c.spawned, c.started⟩

theorem run_placed (plan : CurvePlan) (events : List CurveEvent) :
    Placed plan (run plan events) := by
  refine (Trace.invariant (I := fun s => Slotted plan s ∧ Placed plan s)
    ⟨.new, Nat.zero_le _, nofun⟩ fun s e c => ?_).right
  have h := step_moves plan s e
  exact ⟨c.left.step h, c.right.step c.left h⟩

theorem run_numbered (h : Trace.Along (StartsUncut plan) events) (i : ℕ) :
    Numbered plan events (run plan events) i := by
  induction events using List.reverseRecOn
  case nil => exact .new
  case append_singleton events e ih =>
    have ⟨h, he⟩ := Trace.along_concat.mp h
    have hs : run plan (events ++ [e]) = (run plan events).step plan e := Trace.run_concat
    rw [hs]
    refine (ih h).step he (steps_of_moves (run_slotted plan events) (step_moves plan _ e) i) ?_
    intro he hp
    simp [he, Curve.step, hp, iterated]

-- Nothing that has been started is taken back.
theorem started_subset (plan : CurvePlan) (s : Curve) (e : CurveEvent) :
    s.started <+: (s.step plan e).started := by
  have h := step_moves plan s e
  generalize s.step plan e = s' at h
  cases h
  case retires now desired _ => exact retire_started plan s now desired ▸ List.prefix_rfl
  case starts => exact List.prefix_append ..
  all_goals exact List.prefix_rfl

-- A VU that goes on after an iteration that has been cut off takes its id again.
theorem startsUncut_of_nodup (h : (run plan events).started.Nodup) :
    Trace.Along (StartsUncut plan) events := by
  induction events using List.reverseRecOn
  case nil => exact Trace.along_nil
  case append_singleton events e ih =>
    have hs : run plan (events ++ [e]) = (run plan events).step plan e := Trace.run_concat
    rw [hs] at h
    have hu := ih (h.sublist (started_subset plan _ e).sublist)
    refine Trace.along_concat.mpr ⟨hu, fun i now he hp hd hc => ?_⟩
    have hstep : (run plan events).step plan e = (run plan events).startIteration i := by
      simp [he, Curve.step, vuStep, hp, Nat.not_le.mpr hd]
    rw [hstep] at h
    exact List.disjoint_of_nodup_append h ((run_numbered hu i).cut hc).right
      (List.mem_singleton_self _)

-- As long as the ids fit, no two iterations have the same ids if and only if no VU goes on after an
-- iteration that has been cut off.
theorem run_ids_nodup_iff (hv : plan.vuOffset.val + plan.maxVus.val ≤ 2 ^ 32)
    (hl : ∀ i, (numbers i (run plan events).started).length ≤ 2 ^ 32) :
    (ids plan (run plan events)).Nodup ↔ Trace.Along (StartsUncut plan) events := by
  refine ⟨fun h => startsUncut_of_nodup h.of_map, fun hu => ?_⟩
  have c := run_placed plan events
  exact ids_nodup (fun i => (run_numbered hu i).counts) hl
    (fun e he => (c.started e he).trans_le c.spawned) hv

end Curve

namespace OpenLoop

-- The ids of the iterations that have been started.
def ids (s : OpenLoop) : List (ℕ × ℕ) :=
  s.fired.map fun a => (a.vuId, a.iterId)

-- The arrivals share one counter.
theorem run_ids_nodup {plan : OpenLoopPlan} {events : List OpenLoopEvent}
    (hl : (run plan events).arrivalCounter < 2 ^ 32) : (ids (run plan events)).Nodup := by
  have ⟨_, c⟩ : Pooled plan (run plan events) ∧ Accounted plan (run plan events) := run_invariant
  refine List.Nodup.of_map Prod.snd ?_
  have hi : ((run plan events).ids).map Prod.snd = (run plan events).fired.map Arrival.iterId := by
    simp [ids]
  rw [hi, c.fired]
  refine List.nodup_range.map_on fun a ha b hb he => ?_
  rwa [Word.cast_eq ((List.mem_range.mp ha).trans hl),
    Word.cast_eq ((List.mem_range.mp hb).trans hl)] at he

end OpenLoop

-- A VU that is always desired is never retired.
theorem Surroundings.lockstep_iff {o : Surroundings} {index : ℕ} {vuId : U32} {w : VuState}
    (hd : ∀ time, index < o.desired time) :
    (o.vuEnv index).Lockstep index vuId w ↔
      ¬(o.built.1 ∧ (o.vuEnv index).cancelled (w.after o.built.2) ∧
        (o.vuEnv index).expired (w.after o.built.2)) := by
  have hr (n : ℕ) : o.retiredAt index n = none :=
    List.find?_eq_none.mpr fun time _ => by simpa using hd time
  refine VuEnv.lockstep_iff (o.vuEnv_lawful index) (fun w => hd w.clock) fun n w => ?_
  change (o.retiredAt index n).any (· ≤ w.clock) = false
  rw [hr n]
  rfl

-- The three drivers: a VU of a curve that always desires it does what a closed-loop VU does, and no
-- two iterations of a run have the same ids.
theorem drivers_in_lockstep (o : Surroundings) (index : ℕ) (vuId : U32) (w : VuState) :
    ((∀ time, index < o.desired time) →
      ((o.vuEnv index).Lockstep index vuId w ↔
        ¬(o.built.1 ∧ (o.vuEnv index).cancelled (w.after o.built.2) ∧
          (o.vuEnv index).expired (w.after o.built.2)))) ∧
    (∀ plan events, plan.vuOffset.val + plan.vus.val ≤ 2 ^ 32 →
      (∀ i, (numbers i (Closed.run plan events).started).length ≤ 2 ^ 32) →
      (Closed.ids plan (Closed.run plan events)).Nodup) ∧
    (∀ plan events, plan.vuOffset.val + plan.maxVus.val ≤ 2 ^ 32 →
      (∀ i, (numbers i (Curve.run plan events).started).length ≤ 2 ^ 32) →
      ((Curve.ids plan (Curve.run plan events)).Nodup ↔
        Trace.Along (Curve.StartsUncut plan) events)) ∧
    (∀ plan events, (OpenLoop.run plan events).arrivalCounter < 2 ^ 32 →
      (OpenLoop.run plan events).ids.Nodup) :=
  ⟨Surroundings.lockstep_iff, fun _ _ => Closed.run_ids_nodup, fun _ _ => Curve.run_ids_nodup_iff,
    fun _ _ => OpenLoop.run_ids_nodup⟩

-- Accounts that are used once, by requests that are refused after a second, with a second between
-- the iterations.
def accountsUsed : Surroundings where
  scenario    := ⟨1, "", [], false, none, none,
    [.http ⟨"a", "", ⟨.get, "/{{user}}", [], none, [], []⟩, [], [], none, none⟩]⟩
  datasets    := [⟨.unique, 0, [AList.singleton "user" "x", AList.singleton "user" "y"]⟩]
  genRange    := fun _ _ => 0
  lib         := plainLibraries
  env         := ∅
  client      := ⟨1, false⟩
  built       := (true, 0)
  thinkTime   := some ⟨1000, 1000⟩
  outside     := fun _ => ⟨fun _ _ => ⟨1, 0, 0, .error ⟨"refused", .connectRefused⟩⟩, fun _ _ => "",
    fun _ => 0, fun _ => 0⟩
  drawn       := fun _ _ => 0
  deadline    := 10
  cancelledAt := none
  desired     := fun time => if time < 5 then 1 else 2
  sweeps      := fun _ => [3, 6]
  parked      := fun _ => (.closed, 0)

-- A curve with one VU, which is retired at once during its first iteration and desired again.
def dippingCurve : CurvePlan where
  maxVus   := 1
  rate     := fun now => if now = 1 then 0 else 1
  duration := 10
  vuOffset := 0
  mode     := .immediate
  thinks   := false

-- The VU is built and takes the steps that lead it into its iteration.
def dippingRun : List CurveEvent :=
  [.tick 0, .retire, .built 0 true] ++ List.replicate 7 (.vu 0 0) ++
    [.tick 1, .retire, .iterated 0 (.flow .aborted)] ++ List.replicate 5 (.vu 0 1) ++
    [.tick 2, .retire, .woken 0] ++ List.replicate 4 (.vu 0 2)

theorem accountsUsed_desired (time : ℚ) : 0 < accountsUsed.desired time := by
  unfold accountsUsed
  simp only
  split_ifs <;> decide

theorem drivers_in_lockstep_accounts :
    let w : VuState := ⟨⟨[], 0, 0, 0, ∅, none⟩, 0, fun _ => 0⟩
    (accountsUsed.vuEnv 0).Lockstep 0 7 w ∧
    (accountsUsed.vuEnv 0).runVu 7 3 w =
      ⟨[.draw 0 (some 0), .executeSteps 7 0, .pace, .draw 0 (some 1), .executeSteps 7 1, .pace,
        .draw 0 none], some .ok⟩ ∧
    ¬Trace.Along (Curve.StartsUncut dippingCurve) dippingRun := by
  intro w
  have h := drivers_in_lockstep accountsUsed 0 7 w
  refine ⟨(h.left accountsUsed_desired).mpr (by decide +kernel), by decide +kernel, fun ha => ?_⟩
  have hl (i : ℕ) : (numbers i (Curve.run dippingCurve dippingRun).started).length ≤ 2 ^ 32 := by
    rw [numbers, List.length_map]
    exact (List.length_filter_le ..).trans (by decide)
  have hn := (h.right.right.left dippingCurve dippingRun (by decide) hl).mpr ha
  exact absurd hn (by decide)

theorem drivers_in_lockstep_counterexample :
    Curve.ids dippingCurve (Curve.run dippingCurve dippingRun) = [(0, 0), (0, 0)] ∧
    ¬(Curve.ids dippingCurve (Curve.run dippingCurve dippingRun)).Nodup ∧
    (let o := { accountsUsed with deadline := 0, cancelledAt := some 0 }
     (∀ time, 0 < o.desired time) ∧
       ¬(o.vuEnv 0).Lockstep 0 7 ⟨⟨[], 0, 0, 0, ∅, none⟩, 0, fun _ => 0⟩) := by
  refine ⟨by decide, by decide, ?_⟩
  intro o
  have hd : ∀ time, 0 < o.desired time := accountsUsed_desired
  exact ⟨hd, fun h => (Surroundings.lockstep_iff hd).1 h (by decide +kernel)⟩

end Engine
