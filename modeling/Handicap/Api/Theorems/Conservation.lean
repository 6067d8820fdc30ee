import Handicap.Api.Theorems.Launch
import Handicap.Coordinator.Theorems.Reduce
import Handicap.Engine.Rate

open Store Coordinator Tiling Engine

namespace Coordinator.RunWorkers

variable {rw : RunWorkers} {run : RunId}

-- The profile that the worker of a shard gets.
def shardProfile (rw : RunWorkers) (run : RunId) (i : Fin rw.expected) : Pb.Profile :=
  let (vuOffset, vuCount) := rw.slot i i.isLt
  (rw.assignmentFor run i rw.expected vuOffset vuCount).1.profile

-- The target of a stage for a shard.
def stageTarget (rw : RunWorkers) (i : Fin rw.expected) (t : U32) : U32 :=
  if rw.expected ≤ 1 then t else rw.share Shard.proportionalSplit i t

-- The VUs that the largest stage target of a shard activates.
def vuIds (rw : RunWorkers) (run : RunId) (i : Fin rw.expected) : Set ℕ :=
  let vuOffset := (rw.slot i i.isLt).1
  let peak := (Profile.maxTarget (some (rw.shardProfile run i).vuStages)).getD 0
  Set.Ico vuOffset (vuOffset + peak)

theorem retarget_id (stages : List Stage) : retarget (fun t => t) stages = stages := by
  simp [retarget]

theorem shardProfile_of_single (h : rw.expected ≤ 1) (i : Fin rw.expected) :
    rw.shardProfile run i = rw.base.profile := by
  simp [shardProfile, assignmentFor, reducePoolProfile, h]

theorem shardProfile_of_openLoop (h : ¬rw.expected ≤ 1) (i : Fin rw.expected)
    (ho : rw.base.profile.targetRps.isSome ∨ rw.base.profile.stages ≠ []) :
    rw.shardProfile run i =
      { rw.base.profile with
        maxInFlight := some (Fin.ofNat _ (rw.slot i i.isLt).2)
        targetRps := rw.base.profile.targetRps.map (rw.share Shard.proportionalSplitMin1 i)
        stages := retarget (rw.stageTarget i) rw.base.profile.stages } := by
  have hol : (rw.base.profile.targetRps.isSome || !rw.base.profile.stages.isEmpty) = true := by
    simpa using ho
  have ht : rw.stageTarget i = rw.share Shard.proportionalSplit i := by
    funext t
    rw [stageTarget, if_neg h]
  simp only [shardProfile, assignmentFor, reducePoolProfile, hol, h, ht]
  rfl

theorem shardProfile_of_vuCurve (h : ¬rw.expected ≤ 1) (i : Fin rw.expected)
    (hr : rw.base.profile.targetRps = none) (hs : rw.base.profile.stages = [])
    (hc : rw.base.profile.vuStages ≠ []) :
    rw.shardProfile run i =
      { rw.base.profile with
        vuStages := retarget (rw.stageTarget i) rw.base.profile.vuStages } := by
  have hcu : (!rw.base.profile.vuStages.isEmpty) = true := by simpa using hc
  have ht : rw.stageTarget i = rw.share Shard.proportionalSplit i := by
    funext t
    rw [stageTarget, if_neg h]
  simp only [shardProfile, assignmentFor, reducePoolProfile, hr, hs, hcu, h, ht]
  rfl

theorem stages_shardProfile (i : Fin rw.expected) (hs : rw.base.profile.stages ≠ []) :
    (rw.shardProfile run i).stages = retarget (rw.stageTarget i) rw.base.profile.stages := by
  by_cases h : rw.expected ≤ 1
  case pos =>
    have ht : rw.stageTarget i = fun t => t := funext fun t => if_pos h
    rw [shardProfile_of_single h, ht, retarget_id]
  case neg => rw [shardProfile_of_openLoop h i (.inr hs)]

theorem vuStages_shardProfile (i : Fin rw.expected) (hr : rw.base.profile.targetRps = none)
    (hs : rw.base.profile.stages = []) (hc : rw.base.profile.vuStages ≠ []) :
    (rw.shardProfile run i).vuStages = retarget (rw.stageTarget i) rw.base.profile.vuStages := by
  by_cases h : rw.expected ≤ 1
  case pos =>
    have ht : rw.stageTarget i = fun t => t := funext fun t => if_pos h
    rw [shardProfile_of_single h, ht, retarget_id]
  case neg => rw [shardProfile_of_vuCurve h i hr hs hc]

end Coordinator.RunWorkers

namespace Api

variable {n : ℕ}

-- The shards' values of a field are all positive and add up to the value of the run.
def AddUp (total : U32) (part : Fin n → Option U32) : Prop :=
  ∃ x : Fin n → U32, (∀ i, part i = some (x i) ∧ 1 ≤ (x i).val) ∧ ∑ i, (x i).val = total

-- The shards' stages differ from those of the run in their targets only, which add up stage by
-- stage.
def StagesAddUp (stages : List Stage) (part : Fin n → List Stage) : Prop :=
  ∃ f : Fin n → U32 → U32, (∀ i, part i = retarget (f i) stages) ∧
    ∀ s ∈ stages, ∑ i, (f i s.target).val = s.target

namespace Launched

variable {l : Launch} {rw : RunWorkers} {run : RunId} {rps m : U32} {stages : List Stage}

theorem sum_single (h : ¬1 < rw.expected) (hl : Launched l rw) (t : U32) :
    ∑ _i : Fin rw.expected, t.val = t := by
  have hn : rw.expected = 1 := Nat.le_antisymm (not_lt.mp h) hl.pos
  simp [hn]

theorem slot_mem (i : Fin rw.expected) : rw.slot i i.isLt ∈ rw.slots :=
  List.mem_ofFn.mpr ⟨i, rfl⟩

theorem slot_lt (hl : Launched l rw) (i : Fin rw.expected) : (rw.slot i i.isLt).2 < 2 ^ 32 :=
  have h := (hl.tile.within (slot_mem i)).right
  (Nat.le_of_add_left_le h).trans_lt rw.totalVus.isLt

theorem sum_slots (hl : Launched l rw) :
    ∑ i : Fin rw.expected, (rw.slot i i.isLt).2 = rw.totalVus := by
  have hs := hl.tile.sum
  rwa [Nat.zero_add, RunWorkers.slots, List.map_ofFn, List.sum_ofFn] at hs

theorem targetRps_addUp (run : RunId) (hl : Launched l rw) (hr : l.profile.targetRps = some rps)
    (hpos : 1 ≤ rps.val) : AddUp rps fun i => (rw.shardProfile run i).targetRps := by
  have hb : rw.base.profile.targetRps = some rps := hl.base ▸ hr
  by_cases h : 1 < rw.expected
  case neg =>
    refine ⟨fun _ => rps, fun i => ⟨?_, hpos⟩, hl.sum_single h rps⟩
    dsimp only
    rw [RunWorkers.shardProfile_of_single (not_lt.mp h), hb]
  case pos =>
    have hs := RunWorkers.splits_min1 hl.pos hl.tile hl.le_total (hl.le_rps rps hr)
    refine ⟨fun i => rw.share Shard.proportionalSplitMin1 i rps, fun i => ⟨?_, ?_⟩, hs.sum_share⟩
    · dsimp only
      rw [RunWorkers.shardProfile_of_openLoop (not_le.mpr h) i (.inl (hb ▸ rfl)), hb]
      rfl
    · exact RunWorkers.shares_min1_pos hl.pos hl.tile hl.le_total (hl.le_rps rps hr) _
        (hs.share_mem i)

theorem maxInFlight_addUp (hl : Launched l rw) (hm : l.profile.maxInFlight = some m)
    (ht : rw.totalVus = m) (hpos : 1 ≤ m.val)
    (ho : rw.base.profile.targetRps.isSome ∨ rw.base.profile.stages ≠ []) :
    AddUp m fun i => (rw.shardProfile run i).maxInFlight := by
  by_cases h : 1 < rw.expected
  case neg =>
    refine ⟨fun _ => m, fun i => ⟨?_, hpos⟩, hl.sum_single h m⟩
    dsimp only
    rw [RunWorkers.shardProfile_of_single (not_lt.mp h), hl.base]
    exact hm
  case pos =>
    have hv (i : Fin rw.expected) :
        (Fin.ofNat (2 ^ 32) (rw.slot i i.isLt).2).val = (rw.slot i i.isLt).2 :=
      Nat.mod_eq_of_lt (hl.slot_lt i)
    refine ⟨fun i => Fin.ofNat _ (rw.slot i i.isLt).2, fun i => ⟨?_, ?_⟩, ?_⟩
    · dsimp only
      rw [RunWorkers.shardProfile_of_openLoop (not_le.mpr h) i ho]
    · rw [hv]
      exact hl.slot_pos _ (slot_mem i)
    · simp only [hv, hl.sum_slots, ht]

theorem sum_stageTarget (hl : Launched l rw) (t : U32) :
    ∑ i, (rw.stageTarget i t).val = t := by
  by_cases h : 1 < rw.expected
  case neg =>
    simp only [RunWorkers.stageTarget, if_pos (not_lt.mp h)]
    exact hl.sum_single h t
  case pos =>
    simp only [RunWorkers.stageTarget, if_neg (not_le.mpr h)]
    exact (RunWorkers.splits_proportional hl.pos hl.tile hl.le_total).sum_share

-- No shard is asked for more VUs than it has.
theorem stageTarget_le (hl : Launched l rw) {t : U32} (ht : t ≤ rw.totalVus)
    (i : Fin rw.expected) : (rw.stageTarget i t).val ≤ (rw.slot i i.isLt).2 := by
  by_cases h : 1 < rw.expected
  case neg =>
    have hn : rw.expected = 1 := Nat.le_antisymm (not_lt.mp h) hl.pos
    have hs := hl.sum_slots
    have hi : ∀ j : Fin rw.expected, j = i := fun j => Fin.ext (by omega)
    rw [Fintype.sum_eq_single i fun j hj => absurd (hi j) hj] at hs
    rw [RunWorkers.stageTarget, if_pos (not_lt.mp h), hs]
    exact ht
  case pos =>
    have hs := RunWorkers.splits_proportional (t := t) hl.pos hl.tile hl.le_total
    have hle := RunWorkers.shares_proportional_le hl.pos hl.tile hl.le_total ht
    rw [RunWorkers.stageTarget, if_neg (not_le.mpr h), hs.share_val]
    have hi : i.val < (rw.slots.map Prod.snd).length := by simp
    have hget := hle.get (hs.length.symm ▸ i.isLt) hi
    simpa [RunWorkers.slots_getElem] using hget

theorem stages_addUp (run : RunId) (hl : Launched l rw) (hs : l.profile.stages = some stages)
    (hne : stages ≠ []) : StagesAddUp stages fun i => (rw.shardProfile run i).stages := by
  have hb : rw.base.profile.stages = stages := by
    rw [hl.base]
    simp [Launch.assignment, Pb.toProtoProfile, hs]
  refine ⟨rw.stageTarget, fun i => ?_, fun s _ => hl.sum_stageTarget s.target⟩
  dsimp only
  rw [RunWorkers.stages_shardProfile i (hb ▸ hne), hb]

theorem peak_le (hl : Launched l rw) (i : Fin rw.expected)
    (h : ∀ s ∈ stages, s.target ≤ rw.totalVus) :
    ((Profile.maxTarget (some (retarget (rw.stageTarget i) stages))).getD 0).val ≤
      (rw.slot i i.isLt).2 := by
  cases hm : Profile.maxTarget (some (retarget (rw.stageTarget i) stages))
  case none => exact Nat.zero_le _
  case some peak =>
    have hmem := (List.max?_eq_some_iff.mp hm).left
    simp only [Option.getD_some, retarget, List.map_map, List.mem_map] at hmem ⊢
    obtain ⟨s, hs, rfl⟩ := hmem
    exact hl.stageTarget_le (h s hs) i

theorem slots_disjoint (hl : Launched l rw) {i j : Fin rw.expected} (h : i ≠ j) :
    Disjoint (interval (rw.slot i i.isLt)) (interval (rw.slot j j.isLt)) := by
  have hp := List.pairwise_iff_getElem.mp hl.tile.pairwise_disjoint
  have hlt (i j : Fin rw.expected) (h : i < j) :
      Disjoint (interval (rw.slot i i.isLt)) (interval (rw.slot j j.isLt)) := by
    have hd := hp i j (by simp) (by simp) h
    simpa only [RunWorkers.slots_getElem] using hd
  cases lt_or_gt_of_ne h
  case inl h => exact hlt i j h
  case inr h => exact (hlt j i h).symm

theorem vuStages_addUp (hl : Launched l rw) (hr : l.profile.targetRps = none)
    (hs : ¬l.profile.hasStages) (hv : l.profile.vuStages = some stages) (hne : stages ≠ [])
    (ht : ∀ s ∈ stages, s.target ≤ rw.totalVus) :
    StagesAddUp stages (fun i => (rw.shardProfile run i).vuStages) ∧
      (∀ i, ∀ s ∈ (rw.shardProfile run i).vuStages, s.target ≤ (rw.slot i i.isLt).2) ∧
      ∀ i j, i ≠ j → Disjoint (rw.vuIds run i) (rw.vuIds run j) := by
  have hb : rw.base.profile.vuStages = stages := by
    rw [hl.base]
    simp [Launch.assignment, Pb.toProtoProfile, hv]
  have hb' : rw.base.profile.stages = [] := by
    rw [hl.base]
    cases h : l.profile.stages
    all_goals simp_all [Launch.assignment, Pb.toProtoProfile, Profile.hasStages]
  have hst (i : Fin rw.expected) :
      (rw.shardProfile run i).vuStages = retarget (rw.stageTarget i) stages :=
    hb ▸ RunWorkers.vuStages_shardProfile i (hl.base ▸ hr) hb' (hb ▸ hne)
  refine ⟨⟨rw.stageTarget, hst, fun s _ => hl.sum_stageTarget s.target⟩, fun i s hs => ?_, ?_⟩
  · rw [hst] at hs
    obtain ⟨s', hs', rfl⟩ := List.mem_map.mp hs
    exact hl.stageTarget_le (ht s' hs') i
  · intro i j h
    have hsub (i : Fin rw.expected) : rw.vuIds run i ⊆ interval (rw.slot i i.isLt) := by
      rw [RunWorkers.vuIds, hst]
      exact Set.Ico_subset_Ico_right (Nat.add_le_add_left (hl.peak_le i ht) _)
    exact (hl.slots_disjoint h).mono (hsub i) (hsub j)

end Launched

namespace Load

variable {p : Profile} {rps m : U32}

theorem rps_pos (l : Load p) (h : p.targetRps = some rps) : 1 ≤ rps.val := by
  cases l
  case vuCurve _ hr _ _ => rw [h] at hr; cases hr
  case rateCurve _ _ _ _ hr _ _ _ => rw [h] at hr; cases hr
  case closed _ ho _ => simp [Profile.isOpenLoop, h] at ho
  case fixed hr _ hpos _ => exact Option.some.inj (h.symm.trans hr) ▸ hpos

theorem maxInFlight_eq (l : Load p) (ho : p.isOpenLoop) (h : p.maxInFlight = some m) :
    p.concurrencyDemand = m := by
  cases l
  case vuCurve hr hs _ => simp [Profile.isOpenLoop, hr, hs] at ho
  case closed ho' _ => exact absurd ho ho'
  case fixed hc _ _ _ _ _ _ => simp [Profile.concurrencyDemand, hc, ho, h]
  case rateCurve hc _ _ _ _ _ _ => simp [Profile.concurrencyDemand, hc, ho, h]

theorem of_vuCurve (l : Load p) (h : p.isVuCurve) : p.targetRps = none ∧ ¬p.hasStages := by
  cases l
  case vuCurve hr hs _ => exact ⟨hr, hs⟩
  case closed hc _ _ => exact absurd h hc
  case fixed hc _ _ _ _ _ _ => exact absurd h hc
  case rateCurve hc _ _ _ _ _ _ => exact absurd h hc

end Load

theorem le_vuCurveMax {p : Profile} {stages : List Stage} (h : p.vuStages = some stages) :
    ∀ s ∈ stages, s.target ≤ p.vuCurveMax := by
  intro s hs
  have hm : s.target ∈ stages.map Stage.target := List.mem_map_of_mem hs
  obtain ⟨t, ht⟩ := Option.isSome_iff_exists.mp (List.isSome_max?_of_mem hm)
  have hle := (List.max?_eq_some_iff.mp ht).right _ hm
  simpa [Profile.vuCurveMax, Profile.maxTarget, h, ht] using hle

-- However a validated profile is divided over the workers, by dispatching or by reserving, the
-- shards ask for the load of the profile, and none of them for more than its share.
theorem load_conserved {K : Type*} [Field K] [LinearOrder K] {state : AppState} {l : Launch}
    {metas : List DatasetMeta} {pool : Pool} {rw : RunWorkers}
    (hv : validateRunConfig state l.profile = .ok metas)
    (he : l.Enqueues state.settings pool rw) :
    (∀ rps, l.profile.targetRps = some rps →
      AddUp rps (fun i => (rw.shardProfile l.run i).targetRps) ∧
      ∑ i, max 1 (((rw.shardProfile l.run i).targetRps.getD 0).val) = rps) ∧
    (∀ m, l.profile.isOpenLoop → l.profile.maxInFlight = some m →
      AddUp m (fun i => (rw.shardProfile l.run i).maxInFlight)) ∧
    (∀ stages, l.profile.stages = some stages → stages ≠ [] →
      StagesAddUp stages (fun i => (rw.shardProfile l.run i).stages) ∧
      ∀ elapsed : K,
        ∑ i, rateAt (rw.shardProfile l.run i).stages elapsed = rateAt stages elapsed) ∧
    (∀ stages, l.profile.vuStages = some stages → stages ≠ [] →
      StagesAddUp stages (fun i => (rw.shardProfile l.run i).vuStages) ∧
      (∀ i, ∀ s ∈ (rw.shardProfile l.run i).vuStages, s.target ≤ (rw.slot i i.isLt).2) ∧
      ∀ i j, i ≠ j → Disjoint (rw.vuIds l.run i) (rw.vuIds l.run j)) := by
  have load := load_of_validate hv
  have hl := he.launched load
  refine ⟨fun rps hr => ?fixed, fun m ho hm => ?slots, fun stages hs hne => ?curve,
    fun stages hs hne => ?vuCurve⟩
  case fixed =>
    have ha := hl.targetRps_addUp l.run hr (load.rps_pos hr)
    refine ⟨ha, ?_⟩
    obtain ⟨x, hx, hsum⟩ := ha
    dsimp only at hx
    refine Eq.trans (Finset.sum_congr rfl fun i _ => ?_) hsum
    rw [(hx i).left, Option.getD_some]
    exact max_eq_right (hx i).right
  case slots =>
    have hd := load.maxInFlight_eq ho hm
    refine hl.maxInFlight_addUp hm (hl.totalVus.trans hd) (hd ▸ load.demand_pos) ?_
    rw [hl.base]
    simp only [Profile.isOpenLoop, Profile.hasStages, Bool.or_eq_true] at ho
    cases h : l.profile.stages <;> simp_all [Launch.assignment, Pb.toProtoProfile]
  case curve =>
    have ha := hl.stages_addUp l.run hs hne
    refine ⟨ha, fun elapsed => ?_⟩
    obtain ⟨f, hf, hsum⟩ := ha
    simp only [hf]
    exact sum_rateAt_retarget f elapsed hsum
  case vuCurve =>
    have hc : l.profile.isVuCurve := by simpa [Profile.isVuCurve, hs] using hne
    have ht : rw.totalVus = l.profile.vuCurveMax := by
      rw [hl.totalVus, Profile.concurrencyDemand, if_pos hc]
    obtain ⟨hr, hst⟩ := load.of_vuCurve hc
    exact hl.vuStages_addUp hr hst hs hne (ht ▸ le_vuCurveMax hs)

-- A fixed rate of seven requests per second, with room for five in flight, for two workers.
def fixedRateLaunch : Launch where
  run          := "r"
  metas        := []
  scenarioYaml := ""
  env          := []
  force        := false
  profile      :=
    { vus := 0, rampUpSeconds := 0, durationSeconds := 10, loopBreakdownCap := 0
      httpTimeoutSeconds := 30, dataBinding := none, dataBindings := [], criteria := none
      thinkTime := none, thinkSeed := none, targetRps := some 7, maxInFlight := some 5
      stages := none, measurePhases := false, vuStages := none, rampDown := none
      gracefulRampDownSeconds := none, connectTimeoutSeconds := none, workerCount := some 2
      applyScenarioThinkTime := true }

def defaultState : AppState where
  settings := ⟨2000, 64, 100000, 8, 1000000⟩
  getMeta  := fun _ => none

theorem load_conserved_fixedRate :
    validateRunConfig defaultState fixedRateLaunch.profile = .ok [] ∧
      AddUp 7 fun i => ((fixedRateLaunch.enqueued 2 none).shardProfile "r" i).targetRps :=
  have hv : validateRunConfig defaultState fixedRateLaunch.profile = .ok [] := rfl
  have he : fixedRateLaunch.Enqueues defaultState.settings ∅ (fixedRateLaunch.enqueued 2 none) :=
    .fanOut
  ⟨hv, ((load_conserved (K := ℚ) hv he).left 7 rfl).left⟩

end Api
