import Handicap.Engine.Curve

open Store

namespace Engine

-- A VU is active between its activation and the clearing of its slot.
def VuPc.isActive : VuPc → Bool
  | activeClock | activeToken | activeGate | iterating | recheck | pacing | deactivating
  | leaving _ => true
  | _         => false

-- The VU takes steps of its own, and is not about to exit.
def VuPc.isRunning : VuPc → Bool
  | unspawned | iterating | leaving _ | exited _ => false
  | _                                            => true

-- The task that an event is a step of, if it is a VU.
def CurveEvent.index? : CurveEvent → Option ℕ
  | tick _ | retire | cancel => none
  | vu i _ | built i _ | woken i | wokenByCancel i | wokenByDeadline i _ | iterated i _
  | paced i _ => some i

def Vu.slot (v : Vu) : Option ℕ :=
  if v.pc.isActive then v.act else none

namespace Curve

-- What an event can do, with what its task has found out before it.
inductive Moves (plan : CurvePlan) (s : Curve) : CurveEvent → Curve → Prop
  | stays {e} : Moves plan s e s
  | ends {now} (hs : s.supervisor = .head) :
    Moves plan s (.tick now) { s with supervisor := .done }
  | ticks {now} (hs : s.supervisor = .head) :
    Moves plan s (.tick now) (s.broadcast now (plan.desiredAt now))
  | retires {now desired} (hs : s.supervisor = .ticked now desired) :
    Moves plan s .retire { s.retire plan now desired with supervisor := .head }
  | cancels : Moves plan s .cancel { s with runCancelled := true }
  -- The VU stays active or parked.
  | goes {e index pc} (ho : e.index? = some index) (hr : (s.vus index).pc.isRunning)
      (ha : pc.isActive = (s.vus index).pc.isActive) (hp : pc.isRunning ∨ pc = .leaving .ok)
      (hd : pc = .activating → index < s.desired) :
    Moves plan s e (s.goto index pc)
  | exits {e index exit} (ho : e.index? = some index) (hr : (s.vus index).pc.isRunning)
      (ha : (s.vus index).pc.isActive = false) (hc : exit = .aborted → s.runCancelled)
      (hf : exit = .failed → e = .built index false) :
    Moves plan s e (s.exit index exit)
  | activates {index now} (hp : (s.vus index).pc = .activating) :
    Moves plan s (.vu index now) (s.activate index)
  | starts {index now} (hp : (s.vus index).pc = .activeGate) (hd : index < s.desired) :
    Moves plan s (.vu index now) (s.startIteration index)
  | continues {index} (hp : (s.vus index).pc = .iterating) :
    Moves plan s (.iterated index (.flow .continue)) (s.iterated index (.flow .continue))
  | isCut {index} (hp : (s.vus index).pc = .iterating) :
    Moves plan s (.iterated index (.flow .aborted)) (s.goto index .deactivating)
  | stops {index result exit} (hp : (s.vus index).pc = .iterating) (he : exit ≠ .aborted)
      (hf : exit = .failed → result = .error) :
    Moves plan s (.iterated index result) (s.goto index (.leaving exit))
  | deactivates {index now} (hp : (s.vus index).pc = .deactivating) :
    Moves plan s (.vu index now) ((s.release index).goto index .deactivated)
  | leaves {index now exit} (hp : (s.vus index).pc = .leaving exit) :
    Moves plan s (.vu index now) ((s.release index).exit index exit)

variable {plan : CurvePlan} {s s' : Curve} {e : CurveEvent} {events : List CurveEvent}
variable {i index token now desired cap : ℕ} {pc old : VuPc}

theorem moves_goto (ho : e.index? = some index) (hp : (s.vus index).pc = old)
    (h : old.isRunning ∧ pc.isActive = old.isActive ∧ pc ≠ .activating ∧
      (pc.isRunning ∨ pc = .leaving .ok)) : Moves plan s e (s.goto index pc) :=
  have ⟨hr, ha, hne, hp'⟩ := h
  .goes ho (hp ▸ hr) (hp ▸ ha) hp' fun h => (hne h).elim

theorem moves_exit {exit : VuExit} (ho : e.index? = some index) (hp : (s.vus index).pc = old)
    (h : old.isRunning ∧ old.isActive = false ∧ exit ≠ .failed)
    (hc : exit = .aborted → s.runCancelled) : Moves plan s e (s.exit index exit) :=
  .exits ho (hp ▸ h.left) (hp ▸ h.right.left) hc fun he => (h.right.right he).elim

theorem vuStep_moves : Moves plan s (.vu index now) (s.vuStep plan index now) := by
  unfold vuStep
  split
  case h_1 hp =>
    split_ifs
    case pos h => exact moves_exit rfl hp (by decide) fun _ => h
    case neg => exact moves_goto rfl hp (by decide)
  case h_2 hp =>
    split_ifs
    case pos h => exact moves_exit rfl hp (by decide) (by simp)
    case neg => exact moves_goto rfl hp (by decide)
  case h_3 hp =>
    split_ifs
    case pos => exact moves_goto rfl hp (by decide)
    case neg h =>
      exact .goes rfl (hp ▸ rfl) (hp ▸ rfl) (.inl rfl) fun _ => Nat.lt_of_not_le h
  case h_4 hp => exact .activates hp
  case h_5 hp => split_ifs <;> exact moves_goto rfl hp (by decide)
  case h_6 hp => split_ifs <;> exact moves_goto rfl hp (by decide)
  case h_7 hp =>
    split_ifs
    case pos => exact moves_goto rfl hp (by decide)
    case neg h => exact .starts hp (Nat.lt_of_not_le h)
  case h_8 hp => split_ifs <;> exact moves_goto rfl hp (by decide)
  case h_9 hp => exact .deactivates hp
  case h_10 hp =>
    split_ifs
    case pos h => exact moves_exit rfl hp (by decide) fun _ => h
    case neg => exact moves_goto rfl hp (by decide)
  case h_11 hp => exact .leaves hp
  case h_12 => exact .stays

theorem iterated_moves {result : IterationEnd} (hp : (s.vus index).pc = .iterating) :
    Moves plan s (.iterated index result) (s.iterated index result) := by
  cases result
  case exhausted => exact .stops hp (by simp) (by simp)
  case error => exact .stops hp (by simp) (by simp)
  case flow flow =>
    cases flow
    case «continue» => exact .continues hp
    case deadlineReached => exact .stops hp (by simp) (by simp)
    case aborted => exact .isCut hp

theorem step_moves (plan : CurvePlan) (s : Curve) (e : CurveEvent) :
    Moves plan s e (s.step plan e) := by
  cases e
  case tick now =>
    simp only [step, tick]
    split_ifs
    case pos h _ => exact .ends h
    case neg h _ => exact .ticks h
    case neg => exact .stays
  case retire =>
    simp only [step]
    split
    case h_1 hs => exact .retires hs
    case h_2 => exact .stays
  case cancel => exact .cancels
  case vu => exact vuStep_moves
  case built =>
    simp only [step]
    split_ifs
    case pos h ho => exact moves_goto rfl h (by decide)
    case neg h ho =>
      have ho := Bool.not_eq_true _ ▸ ho
      exact .exits rfl (h ▸ rfl) (h ▸ rfl) (by simp) fun _ => by rw [ho]
    case neg => exact .stays
  case woken =>
    simp only [step]
    split_ifs
    case pos h => exact .goes rfl (h.left ▸ rfl) (h.left ▸ rfl) (.inl rfl) fun _ => h.right
    case neg => exact .stays
  case wokenByCancel =>
    simp only [step]
    split_ifs
    case pos h => exact moves_exit rfl h.left (by decide) fun _ => h.right
    case neg => exact .stays
  case wokenByDeadline =>
    simp only [step]
    split_ifs
    case pos h => exact moves_exit rfl h.left (by decide) (by simp)
    case neg => exact .stays
  case iterated =>
    simp only [step]
    split_ifs
    case pos h => exact iterated_moves h
    case neg => exact .stays
  case paced index outcome =>
    simp only [step]
    split_ifs
    case neg => exact .stays
    case pos h => cases outcome <;> exact moves_goto rfl h (by decide)

-- A slot holds the token of its VU just while the VU is active, and tokens are not used twice.
structure Slotted (plan : CurvePlan) (s : Curve) : Prop where
  slab      : ∀ i, s.slab i = (s.vus i).slot
  act       : ∀ i, (s.vus i).pc.isActive → (s.vus i).act.isSome
  issued    : ∀ i t, (s.vus i).act = some t → t < s.tokens
  unspawned : ∀ i, s.spawned ≤ i → (s.vus i).pc = .unspawned
  cancelled : ∀ t ∈ s.cancelled, ∃ r ∈ s.ticks, ∃ i, r.slab i = some t
  seen      : ∀ r ∈ s.ticks, ∀ i t, r.slab i = some t → t < s.tokens
  logged    : ∀ r ∈ s.ticks, ∀ i t, (i, t) ∈ r.cancelled → r.slab i = some t

theorem slot_of_isActive {v : Vu} (h : pc.isActive = v.pc.isActive) :
    Vu.slot { v with pc } = v.slot := by
  simp [Vu.slot, h]

theorem vus_update {v : Vu} : Function.update s.vus index v i = if i = index then v else s.vus i :=
  Function.update_apply ..

theorem mem_undesiredTokens (h : (i, token) ∈ s.undesiredTokens plan desired) :
    desired ≤ i ∧ s.slab i = some token := by
  have ⟨j, _, hj⟩ := List.mem_filterMap.mp h
  split_ifs at hj with hd
  have ⟨t, ht, he⟩ := Option.map_eq_some_iff.mp hj
  cases he
  exact ⟨hd, ht⟩

theorem mem_expiredTokens (h : (i, token) ∈ s.expiredTokens desired cap now) :
    desired ≤ i ∧ i < s.spawned ∧ s.slab i = some token ∧
      ∃ t, s.retireSince i = some t ∧ cap ≤ now - t := by
  have ⟨j, hr, hj⟩ := List.mem_filterMap.mp h
  split at hj
  case h_2 => cases hj
  case h_1 token' t hs ht =>
    split_ifs at hj with hd
    cases hj
    exact ⟨hd.left, List.mem_range.mp hr, hs, t, ht, hd.right⟩

namespace Slotted

theorem new : Slotted plan .new where
  slab      := fun _ => rfl
  act       := fun _ h => by simp [Curve.new, VuPc.isActive] at h
  issued    := fun _ _ h => by simp [Curve.new] at h
  unspawned := fun _ _ => rfl
  cancelled := nofun
  seen      := nofun
  logged    := nofun

-- A VU that has been spawned changes its own state and its own slot only.
theorem locally (c : Slotted plan s) {v : Vu} (hi : index < s.spawned)
    (hv : s'.vus = Function.update s.vus index v)
    (hs : s'.slab = Function.update s.slab index v.slot) (ha : v.pc.isActive → v.act.isSome)
    (hk : ∀ t, v.act = some t → t < s'.tokens) (ht : s.tokens ≤ s'.tokens)
    (hsp : s'.spawned = s.spawned) (hc : s'.cancelled = s.cancelled) (hl : s'.ticks = s.ticks) :
    Slotted plan s' := by
  refine ⟨fun i => ?_, fun i => ?_, fun i t => ?_, fun i h => ?_, ?_, ?_, ?_⟩
  all_goals
    try rw [hv, vus_update]
  · rw [hs, Function.update_apply]
    split_ifs
    case pos => rfl
    case neg => exact c.slab i
  · split_ifs
    case pos => exact ha
    case neg => exact c.act i
  · split_ifs
    case pos => exact hk t
    case neg => exact fun h => (c.issued i t h).trans_le ht
  · rw [hsp] at h
    have hne : i ≠ index := fun he => Nat.not_lt.mpr h (he ▸ hi)
    rw [if_neg hne]
    exact c.unspawned i h
  · rw [hc, hl]
    exact c.cancelled
  · rw [hl]
    exact fun r hr i t h => (c.seen r hr i t h).trans_le ht
  · rw [hl]
    exact c.logged

theorem spawned_of_ne (c : Slotted plan s) (h : (s.vus index).pc ≠ .unspawned) :
    index < s.spawned :=
  Nat.lt_of_not_le fun hle => h (c.unspawned index hle)

theorem spawned_of_isRunning (c : Slotted plan s) (h : (s.vus index).pc.isRunning) :
    index < s.spawned :=
  c.spawned_of_ne fun hp => by simp [hp, VuPc.isRunning] at h

theorem update_slab (c : Slotted plan s) {v : Vu} (h : v.slot = (s.vus index).slot) :
    s.slab = Function.update s.slab index v.slot := by
  rw [h, ← c.slab, Function.update_eq_self]

theorem cancelTokens {tokens : List (ℕ × ℕ)} (c : Slotted plan s)
    (ht : ∀ i t, (i, t) ∈ tokens → s.slab i = some t) :
    Slotted plan (s.cancelTokens now desired tokens) := by
  refine ⟨c.slab, c.act, c.issued, c.unspawned, fun t h => ?_, fun r hr => ?_, fun r hr => ?_⟩
  · cases List.mem_append.mp h
    case inl h =>
      have ⟨r, hr, hi⟩ := c.cancelled t h
      exact ⟨r, List.mem_append_left _ hr, hi⟩
    case inr h =>
      have ⟨⟨i, _⟩, hm, he⟩ := List.mem_map.mp h
      subst he
      exact ⟨_, List.mem_append_right _ (List.mem_singleton_self _), i, ht _ _ hm⟩
  · cases List.mem_append.mp hr
    case inl hr => exact c.seen r hr
    case inr hr =>
      intro i t h
      rw [List.mem_singleton.mp hr] at h
      have hs := c.slab i
      simp only at h
      rw [h, Vu.slot] at hs
      split_ifs at hs
      exact c.issued i t hs.symm
  · cases List.mem_append.mp hr
    case inl hr => exact c.logged r hr
    case inr hr =>
      rw [List.mem_singleton.mp hr]
      exact ht

theorem retire (c : Slotted plan s) (now desired : ℕ) :
    Slotted plan (s.retire plan now desired) := by
  unfold Curve.retire
  split
  case h_1 => exact c.cancelTokens fun i t h => (mem_undesiredTokens h).right
  case h_2 cap _ =>
    have c : Slotted plan (s.cancelTokens now desired (s.expiredTokens desired cap now)) :=
      c.cancelTokens fun i t h => (mem_expiredTokens h).right.right.left
    exact ⟨c.slab, c.act, c.issued, c.unspawned, c.cancelled, c.seen, c.logged⟩
  case h_3 => exact c.cancelTokens nofun

theorem broadcast (c : Slotted plan s) (now desired : ℕ) :
    Slotted plan (s.broadcast now desired) := by
  have hv i : ((s.broadcast now desired).vus i).slot = (s.vus i).slot ∧
      ((s.broadcast now desired).vus i).act = (s.vus i).act ∧
      (((s.broadcast now desired).vus i).pc.isActive → (s.vus i).pc.isActive) := by
    simp only [Curve.broadcast, spawn]
    split_ifs
    case neg => exact ⟨rfl, rfl, id⟩
    case pos h => simp [Vu.slot, c.unspawned i h.left, VuPc.isActive]
  refine ⟨fun i => ?_, fun i h => ?_, fun i t h => ?_, fun i h => ?_, c.cancelled, c.seen, c.logged⟩
  · rw [(hv i).left]
    exact c.slab i
  · rw [(hv i).right.left]
    exact c.act i ((hv i).right.right h)
  · rw [(hv i).right.left] at h
    exact c.issued i t h
  · have h : s.spawned ≤ i ∧ desired ≤ i := Nat.max_le.mp h
    simp only [Curve.broadcast, spawn]
    rw [if_neg fun hd => Nat.not_lt.mpr h.right hd.right]
    exact c.unspawned i h.left

theorem step (c : Slotted plan s) (h : Moves plan s e s') : Slotted plan s' := by
  cases h
  case stays => exact c
  case ends => exact ⟨c.slab, c.act, c.issued, c.unspawned, c.cancelled, c.seen, c.logged⟩
  case cancels => exact ⟨c.slab, c.act, c.issued, c.unspawned, c.cancelled, c.seen, c.logged⟩
  case retires now desired _ =>
    have c := c.retire now desired
    exact ⟨c.slab, c.act, c.issued, c.unspawned, c.cancelled, c.seen, c.logged⟩
  case ticks => exact c.broadcast _ _
  case goes index pc hr ha _ _ _ =>
    have hi := c.spawned_of_isRunning hr
    exact c.locally hi rfl (c.update_slab (slot_of_isActive ha)) (fun h => c.act index (ha ▸ h))
      (c.issued index) le_rfl rfl rfl rfl
  case exits index exit hr ha _ _ _ =>
    have hi := c.spawned_of_isRunning hr
    refine c.locally hi rfl (c.update_slab ?_) (by simp [VuPc.isActive]) (c.issued index) le_rfl
      rfl rfl rfl
    rw [Vu.slot, Vu.slot, ha]
    rfl
  case activates index _ hp =>
    have hi : index < s.spawned := c.spawned_of_ne (by simp [hp])
    exact c.locally hi rfl rfl (fun _ => rfl) (fun t h => by cases h; exact Nat.lt_succ_self _)
      (Nat.le_succ _) rfl rfl rfl
  case deactivates index _ hp =>
    have hi : index < s.spawned := c.spawned_of_ne (by simp [hp])
    refine c.locally hi (v := ⟨.deactivated, none, (s.vus index).iterId⟩) ?_ rfl
      (by simp [VuPc.isActive]) (by simp) le_rfl rfl rfl rfl
    simp [goto, release]
  case leaves index _ exit hp =>
    have hi : index < s.spawned := c.spawned_of_ne (by simp [hp])
    refine c.locally hi (v := ⟨.exited exit, none, (s.vus index).iterId⟩) ?_ rfl
      (by simp [VuPc.isActive]) (by simp) le_rfl rfl rfl rfl
    simp [Curve.exit, goto, release]
  case starts index _ hp _ =>
    have hi : index < s.spawned := c.spawned_of_ne (by simp [hp])
    exact c.locally hi rfl (c.update_slab (slot_of_isActive (hp ▸ rfl)))
      (fun _ => c.act index (hp ▸ rfl)) (c.issued index) le_rfl rfl rfl rfl
  case isCut index hp =>
    have hi : index < s.spawned := c.spawned_of_ne (by simp [hp])
    exact c.locally hi rfl (c.update_slab (slot_of_isActive (hp ▸ rfl)))
      (fun _ => c.act index (hp ▸ rfl)) (c.issued index) le_rfl rfl rfl rfl
  case stops index _ exit hp _ _ =>
    have hi : index < s.spawned := c.spawned_of_ne (by simp [hp])
    exact c.locally hi rfl (c.update_slab (slot_of_isActive (hp ▸ rfl)))
      (fun _ => c.act index (hp ▸ rfl)) (c.issued index) le_rfl rfl rfl rfl
  case continues index hp =>
    have hi : index < s.spawned := c.spawned_of_ne (by simp [hp])
    refine c.locally hi rfl (c.update_slab ?_) (fun _ => c.act index (hp ▸ rfl)) (c.issued index)
      le_rfl rfl rfl rfl
    simp [Vu.slot, hp, VuPc.isActive]

end Slotted

-- Between two ticks, an undesired VU keeps its token or loses it, but gets no other one.
def Settled (s : Curve) (i token : ℕ) : Prop :=
  s.desired ≤ i ∧ (s.slab i = some token ∨ s.slab i = none ∧ (s.vus i).pc ≠ .activating)

-- All of these ticks have seen the token of a VU that was not desired.
def Lingers (i token : ℕ) (ticks : List TickRecord) : Prop :=
  ∀ r ∈ ticks, r.desired ≤ i ∧ r.slab i = some token

-- The token has been seen like this from a tick on that is at least `cap` ago.
def Expires (cap : ℕ) (ticks : List TickRecord) (r : TickRecord) : Prop :=
  ∀ i token, (i, token) ∈ r.cancelled →
    ∃ pre q mid, ticks = pre ++ q :: mid ∧ cap ≤ r.now - q.now ∧ Lingers i token (q :: mid ++ [r])

-- A timer tells since when all ticks have seen the token of the VU. It is void if the VU is desired
-- at the present tick.
structure Timed (plan : CurvePlan) (s : Curve) : Prop where
  off        : (∀ cap, plan.mode ≠ .graceful (some cap)) → ∀ i, s.retireSince i = none
  supervisor : ∀ now desired, s.supervisor = .ticked now desired → s.desired = desired
  unset      : ∀ i, s.spawned ≤ i → s.retireSince i = none
  since      : ∀ i t, s.retireSince i = some t → ∃ token pre q mid, s.ticks = pre ++ q :: mid ∧
    q.now = t ∧ Lingers i token (q :: mid) ∧
    (s.Settled i token ∨ ∃ now desired, s.supervisor = .ticked now desired ∧ i < desired)

theorem Lingers.concat {ticks : List TickRecord} {r : TickRecord} (h : Lingers i token ticks)
    (hd : r.desired ≤ i) (hs : r.slab i = some token) : Lingers i token (ticks ++ [r]) := by
  intro r' hr
  cases List.mem_append.mp hr
  case inl hr => exact h r' hr
  case inr hr =>
    rw [List.mem_singleton.mp hr]
    exact ⟨hd, hs⟩

theorem timers_some {t : ℕ} (h : s.timers desired now i = some t)
    (hu : s.spawned ≤ i → s.retireSince i = none) :
    desired ≤ i ∧ ∃ token, s.slab i = some token ∧
      (s.retireSince i = none ∧ t = now ∨ s.retireSince i = some t) := by
  unfold timers at h
  split_ifs at h with hd hs
  case pos => simp [hu hs] at h
  case neg =>
    split at h
    case h_1 => cases h
    case h_2 token hsl hr => cases h; exact ⟨Nat.le_of_not_lt hd, token, hsl, .inl ⟨hr, rfl⟩⟩
    case h_3 token t hsl hr => cases h; exact ⟨Nat.le_of_not_lt hd, token, hsl, .inr hr⟩

namespace Timed

theorem new : Timed plan .new where
  off        := fun _ _ => rfl
  supervisor := fun _ _ h => by simp [Curve.new] at h
  unset      := fun _ _ => rfl
  since      := fun _ _ h => by simp [Curve.new] at h

-- A VU changes nothing that the timers depend on, but for its own token.
theorem locally {v : Vu} {x : Option ℕ} (c : Timed plan s) (hd : s'.desired = s.desired)
    (hs : s'.supervisor = s.supervisor) (hsp : s'.spawned = s.spawned)
    (hr : s'.retireSince = s.retireSince) (ht : s'.ticks = s.ticks)
    (hv : s'.vus = Function.update s.vus index v)
    (hsl : s'.slab = Function.update s.slab index x)
    (h : ∀ token, s.Settled index token → x = some token ∨ x = none ∧ v.pc ≠ .activating) :
    Timed plan s' := by
  refine ⟨?_, ?_, ?_, fun i t hi => ?_⟩
  · rw [hr]
    exact c.off
  · rw [hs, hd]
    exact c.supervisor
  · rw [hsp, hr]
    exact c.unset
  · rw [hr] at hi
    have ⟨token, pre, q, mid, he, hq, hl, hst⟩ := c.since i t hi
    refine ⟨token, pre, q, mid, ht.trans he, hq, hl, ?_⟩
    rw [hs]
    refine hst.imp (fun hst => ?_) id
    refine ⟨hd.trans_le hst.left, ?_⟩
    rw [hv, hsl, vus_update, Function.update_apply]
    split_ifs
    case pos hi => exact h token (hi ▸ hst)
    case neg => exact hst.right

-- A VU that goes on without being desired does not activate.
theorem goes_on {token : ℕ} (h : s.Settled index token) (hp : pc = .activating → index < s.desired) :
    s.slab index = some token ∨ s.slab index = none ∧ pc ≠ .activating :=
  h.right.imp id fun hs => ⟨hs.left, fun he => Nat.not_lt.mpr h.left (hp he)⟩

-- While a tick sees an active VU that is not desired, its timer is about the token in its slot.
theorem lingers {t : ℕ} (c : Timed plan s) (hs : s.supervisor = .ticked now desired)
    (hd : desired ≤ i) (hsl : s.slab i = some token) (ht : s.retireSince i = some t) :
    ∃ pre q mid, s.ticks = pre ++ q :: mid ∧ q.now = t ∧ Lingers i token (q :: mid) := by
  have ⟨token', pre, q, mid, he, hq, hl, ho⟩ := c.since i t ht
  refine ⟨pre, q, mid, he, hq, ?_⟩
  cases ho
  case inl hst =>
    have ho := hst.right
    rw [hsl] at ho
    have heq : token = token' := by simpa using ho
    exact heq ▸ hl
  case inr ho =>
    have ⟨_, _, hs', hlt⟩ := ho
    cases hs.symm.trans hs'
    exact (Nat.not_lt.mpr hd hlt).elim

theorem retireExpired (c : Timed plan s) (hm : plan.mode = .graceful (some cap))
    (hs : s.supervisor = .ticked now desired) :
    Timed plan { s.retireExpired desired cap now with supervisor := .head } := by
  have hd := c.supervisor now desired hs
  refine ⟨fun h => (h cap hm).elim, by simp, fun i hi => ?_, fun i t hi => ?_⟩
  · have hu := c.unset i hi
    change s.timers desired now i = none
    unfold timers
    split_ifs
    case pos => rfl
    case pos => exact hu
    case neg h => exact (h hi).elim
  · have ⟨hdi, token, hsl, ho⟩ := timers_some hi (c.unset i)
    have hst : Settled { s.retireExpired desired cap now with supervisor := .head } i token :=
      ⟨hd.trans_le hdi, .inl hsl⟩
    cases ho
    case inl h =>
      have hl : Lingers i token [] := nofun
      exact ⟨token, s.ticks, _, [], rfl, h.right.symm, hl.concat hdi hsl, .inl hst⟩
    case inr h =>
      have ⟨pre, q, mid, he, hq, hl⟩ := c.lingers hs hdi hsl h
      refine ⟨token, pre, q, mid ++ [⟨now, desired, s.slab, s.expiredTokens desired cap now⟩], ?_,
        hq, List.cons_append ▸ hl.concat hdi hsl, .inl hst⟩
      change s.ticks ++ _ = _
      rw [he, List.append_assoc]
      rfl

theorem retire (c : Timed plan s) (hs : s.supervisor = .ticked now desired) :
    Timed plan { s.retire plan now desired with supervisor := .head } := by
  unfold Curve.retire
  split
  case h_2 cap hm => exact c.retireExpired hm hs
  all_goals
    rename_i hm
    have ho : ∀ i, s.retireSince i = none := c.off fun cap h => by simp [hm] at h
    exact ⟨fun _ => ho, by simp, fun i _ => ho i, fun i t h => by
      simp [Curve.cancelTokens, ho i] at h⟩

theorem broadcast (c : Timed plan s) (hs : s.supervisor = .head) :
    Timed plan (s.broadcast now desired) := by
  refine ⟨c.off, ?_, fun i hi => c.unset i (Nat.max_le.mp hi).left, fun i t hi => ?_⟩
  · intro now' desired' h
    cases h
    rfl
  · have ⟨token, pre, q, mid, he, hq, hl, ho⟩ := c.since i t hi
    refine ⟨token, pre, q, mid, he, hq, hl, ?_⟩
    cases Nat.lt_or_ge i desired
    case inl hlt => exact .inr ⟨now, desired, rfl, hlt⟩
    case inr hle =>
      cases ho
      case inr ho => simp [hs] at ho
      case inl hst =>
        refine .inl ⟨hle, hst.right.imp id fun h => ⟨h.left, ?_⟩⟩
        simp only [Curve.broadcast, spawn]
        rw [if_neg fun hd => Nat.not_lt.mpr hle hd.right]
        exact h.right

theorem step (c : Timed plan s) (cs : Slotted plan s) (h : Moves plan s e s') : Timed plan s' := by
  cases h
  case stays => exact c
  case ends hs =>
    refine ⟨c.off, by simp, c.unset, fun i t h => ?_⟩
    have ⟨token, pre, q, mid, he, hq, hl, ho⟩ := c.since i t h
    refine ⟨token, pre, q, mid, he, hq, hl, .inl ?_⟩
    cases ho
    case inl hst => exact hst
    case inr ho => simp [hs] at ho
  case cancels => exact ⟨c.off, c.supervisor, c.unset, c.since⟩
  case retires hs => exact c.retire hs
  case ticks hs => exact c.broadcast hs
  case goes index pc _ _ _ hd _ =>
    exact c.locally (x := s.slab index) rfl rfl rfl rfl rfl rfl
      (Function.update_eq_self ..).symm fun token h => goes_on h hd
  case exits index exit _ _ _ _ _ =>
    exact c.locally (x := s.slab index) rfl rfl rfl rfl rfl rfl
      (Function.update_eq_self ..).symm fun token h => goes_on h (by simp)
  case activates index _ hp =>
    refine c.locally rfl rfl rfl rfl rfl rfl rfl fun token h => ?_
    have hsl := cs.slab index
    rw [Vu.slot, hp] at hsl
    cases h.right
    case inl h => simp [h, VuPc.isActive] at hsl
    case inr h => exact (h.right hp).elim
  case deactivates index _ hp =>
    refine c.locally (v := ⟨.deactivated, none, (s.vus index).iterId⟩) rfl rfl rfl rfl rfl ?_ rfl
      fun token h => .inr ⟨rfl, by simp⟩
    simp [goto, release]
  case leaves index _ exit hp =>
    refine c.locally (v := ⟨.exited exit, none, (s.vus index).iterId⟩) rfl rfl rfl rfl rfl ?_ rfl
      fun token h => .inr ⟨rfl, by simp⟩
    simp [Curve.exit, goto, release]
  case starts index _ hp _ =>
    exact c.locally (x := s.slab index) rfl rfl rfl rfl rfl rfl
      (Function.update_eq_self ..).symm fun token h => goes_on h (by simp)
  case continues index hp =>
    exact c.locally (x := s.slab index) rfl rfl rfl rfl rfl rfl
      (Function.update_eq_self ..).symm fun token h => goes_on h (by simp)
  case isCut index hp =>
    exact c.locally (x := s.slab index) rfl rfl rfl rfl rfl rfl
      (Function.update_eq_self ..).symm fun token h => goes_on h (by simp)
  case stops index _ exit hp _ _ =>
    exact c.locally (x := s.slab index) rfl rfl rfl rfl rfl rfl
      (Function.update_eq_self ..).symm fun token h => goes_on h (by simp)

end Timed

end Curve

end Engine
