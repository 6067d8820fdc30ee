import Handicap.Api.Theorems.Conservation
import Handicap.Engine.Theorems.Arrivals
import Mathlib.Data.List.TakeWhile

open Guard Store Engine ArrivalSchedule Coordinator Apportionment

namespace Api

-- The stages of an accepted rate curve last, and one of them has a load.
theorem stages_of_validate {state : AppState} {p : Profile} {metas : List DatasetMeta}
    (h : validateRunConfig state p = .ok metas) (hs : p.hasStages) :
    ¬p.isVuCurve ∧ (∀ s ∈ p.stages.getD [], 1 ≤ s.durationSeconds.val) ∧
      ∃ s ∈ p.stages.getD [], s.target ≠ 0 := by
  have h := checkLoad_of_validate h
  have ho : p.isOpenLoop := by simp [Profile.isOpenLoop, hs]
  rw [checkLoad] at h
  split_ifs at h with hc
  case pos =>
    simp only [checkVuCurve, seq_eq_ok, refuseWith_eq_ok] at h
    exact absurd hs h.right.right.left
  case neg =>
    simp only [checkOpenLoop, seq_eq_ok] at h
    have hr := h.right.right.right.left
    rw [checkRates, if_pos hs] at hr
    simp only [checkRateCurve, seq_eq_ok, refuseWith_eq_ok, not_not, forM_eq_ok] at hr
    obtain ⟨-, -, hd, ha⟩ := hr
    refine ⟨hc, fun s hm => Nat.pos_of_ne_zero (Fin.val_ne_zero_iff.mpr (hd s hm).right), ?_⟩
    obtain ⟨s, hm, hpos⟩ := List.any_eq_true.mp ha
    exact ⟨s, hm, (of_decide_eq_true hpos).ne'⟩

section Curve

variable {f : U32 → U32} {stages : List Stage} {stage : Stage} {τ : ℝ}

-- Where every target is shared out, the stages without load have no arrivals.
theorem areaFrom_lead (hf : f 0 = 0) (hτ : 0 ≤ τ) :
    areaFrom 0 (retarget f stages)
        (((stages.takeWhile (·.target = 0)).map (·.durationSeconds.val)).sum + τ) =
      areaFrom 0 (retarget f (stages.dropWhile (·.target = 0))) τ := by
  induction stages
  case nil => simp
  case cons s stages ih =>
    by_cases h0 : s.target = 0
    case neg => simp [h0]
    case pos =>
      have hsum : (0 : ℝ) ≤
          (((stages.takeWhile (·.target = 0)).map (·.durationSeconds.val)).sum : ℕ) :=
        Nat.cast_nonneg _
      simp only [List.takeWhile_cons, List.dropWhile_cons, h0, decide_true, if_true, List.map_cons,
        List.sum_cons, Nat.cast_add]
      have ha : stageArea 0 ⟨f 0, s.durationSeconds⟩ = 0 := by simp [stageArea, hf]
      rw [retarget, List.map_cons, h0, areaFrom_after (by dsimp only; linarith), ha, zero_add, hf]
      simp only [Fin.val_zero, Nat.cast_zero]
      rw [← ih, add_assoc, add_sub_cancel_left]
      rfl

theorem find_eq_head_dropWhile :
    stages.find? (·.target ≠ 0) = (stages.dropWhile (·.target = 0)).head? := by
  rw [List.find?_eq_head?_dropWhile_not]
  simp

-- The first arrival comes within `τ` from the start of the first stage with a load, if the share of
-- its target is large enough.
theorem firstArrival_of_share (hf : f 0 = 0) (hs : stages.find? (·.target ≠ 0) = some stage)
    (hd : 1 ≤ stage.durationSeconds.val) (hτ : 0 ≤ τ) (hle : τ ≤ stage.durationSeconds.val)
    (h : stage.durationSeconds.val ≤ (f stage.target).val * τ ^ 2) :
    ∃ t ≤ ((stages.takeWhile (·.target = 0)).map (·.durationSeconds.val)).sum + τ,
      (timeAt Real.sqrt (new (retarget f stages)) (1 / 2)).2 = some t := by
  have hpos : (0 : ℝ) < stage.durationSeconds.val := by exact_mod_cast hd
  have hlead : (0 : ℝ) ≤
      (((stages.takeWhile (·.target = 0)).map (·.durationSeconds.val)).sum : ℕ) :=
    Nat.cast_nonneg _
  obtain ⟨rest, hr⟩ := List.head?_eq_some_iff.mp (find_eq_head_dropWhile.symm.trans hs)
  refine (fresh_isFirst (by norm_num)).of_le (add_nonneg hlead hτ) ?_
  rw [cumulative_eq (add_nonneg hlead hτ), areaFrom_lead hf hτ, hr, retarget, List.map_cons,
    areaFrom, if_pos hle, areaWithin]
  -- The area of a ramp from zero is half of its rate at the time.
  have ha : (1 : ℝ) / 2 ≤ (f stage.target).val * τ ^ 2 / (2 * stage.durationSeconds.val) := by
    rw [le_div_iff₀ (by linarith)]
    linarith
  refine ha.trans_eq ?_
  push_cast
  field_simp
  ring

-- A share of a `n`-th of the target is large enough for the bound.
theorem share_reaches {n s d t : ℕ} (hd : 1 ≤ d) (ht : 1 ≤ t) (hs : t ≤ n * s) :
    (d : ℝ) ≤ s * ((min ⌈√((n : ℝ) * d / t)⌉₊ d : ℕ) : ℝ) ^ 2 := by
  have hs1 : 1 ≤ s := Nat.pos_of_ne_zero fun h => by simp [h] at hs; omega
  cases min_choice ⌈√((n : ℝ) * d / t)⌉₊ d
  case inr h =>
    rw [h]
    have hle : d ≤ s * d ^ 2 := by nlinarith [Nat.mul_le_mul hs1 (Nat.mul_le_mul hd (le_refl d))]
    exact_mod_cast hle
  case inl h =>
    rw [h]
    have htpos : (0 : ℝ) < t := by exact_mod_cast ht
    have hx : (0 : ℝ) ≤ (n : ℝ) * d / t := by positivity
    have hns : (t : ℝ) ≤ n * s := by exact_mod_cast hs
    calc (d : ℝ) = t * (d / t) := by field_simp
      _ ≤ (n * s) * (d / t) := mul_le_mul_of_nonneg_right hns (by positivity)
      _ = s * (n * d / t) := by ring
      _ = s * √((n : ℝ) * d / t) ^ 2 := by rw [Real.sq_sqrt hx]
      _ ≤ s * (⌈√((n : ℝ) * d / t)⌉₊ : ℝ) ^ 2 := by gcongr; exact Nat.le_ceil _

end Curve

section Share

variable {n i : ℕ} {slotWeights : Option (List ℕ)} {t : U32}

-- An even split, or one by weights of at least one for each worker.
def Weighs (n : ℕ) (slotWeights : Option (List ℕ)) : Prop :=
  ∀ w ∈ slotWeights, w.length = n ∧ ∀ x ∈ w, 1 ≤ x ∧ x < 2 ^ 32

-- The shares of a total, of which `shareOf` gives the one of a worker.
def sharesOf (n : ℕ) (slotWeights : Option (List ℕ)) (t : U32) : List ℕ :=
  match slotWeights with
  | some w => largestRemainder t w
  | none   => evenShares t n

theorem Weighs.sum_pos {w : List ℕ} (hw : Weighs n (some w)) (hn : 1 ≤ n) : 0 < w.sum := by
  obtain ⟨hl, hx⟩ := hw w rfl
  have hm : w[0] ∈ w := List.getElem_mem (by omega)
  exact (hx _ hm).left.trans (List.single_le_sum (fun _ _ => Nat.zero_le _) _ hm)

theorem sharesOf_length (hw : Weighs n slotWeights) : (sharesOf n slotWeights t).length = n := by
  cases slotWeights
  case none => exact evenShares_length
  case some w => exact largestRemainder_length.trans (hw w rfl).left

theorem sharesOf_sum (hw : Weighs n slotWeights) (hn : 1 ≤ n) :
    (sharesOf n slotWeights t).sum = t := by
  cases slotWeights
  case none => exact evenShares_sum _ hn
  case some w => exact largestRemainder_sum (hw.sum_pos hn)

theorem sharesOf_getElem? (hw : Weighs n slotWeights) (hn : n < 2 ^ 32) (hi : i < n) :
    (sharesOf n slotWeights t)[i]? =
      some (shareOf Shard.proportionalSplit i n slotWeights t).val := by
  have hl : i < (sharesOf n slotWeights t).length := (sharesOf_length hw).symm ▸ hi
  have hle := List.single_le_sum (fun _ _ => Nat.zero_le _) _ (List.getElem_mem hl)
  rw [sharesOf_sum hw (by omega)] at hle
  have hlt := hle.trans_lt t.isLt
  rw [List.getElem?_eq_getElem hl]
  cases slotWeights
  case none =>
    simp only [sharesOf, evenShares, List.getElem_map, List.getElem_range] at hlt ⊢
    simp only [shareOf, Fin.val_ofNat, Shard.shardSplit_eq t.isLt hi]
    exact congrArg some (Nat.mod_eq_of_lt hlt).symm
  case some w =>
    have hsum := hw.sum_pos (by omega)
    have hx := (hw w rfl).right
    have he := Shard.proportionalSplit_exact t.isLt hsum
      (Shard.weights_sum_lt ((hw w rfl).left ▸ hn) fun x hm => (hx x hm).right)
      fun x hm => (hx x hm).right
    simp only [shareOf, Fin.val_ofNat, he]
    simp only [sharesOf] at hl hlt ⊢
    rw [List.getElem?_eq_getElem hl, Option.getD_some]
    exact congrArg some (Nat.mod_eq_of_lt hlt).symm

-- The worker has the largest share of every stage.
def Busiest (n : ℕ) (slotWeights : Option (List ℕ)) (stages : List Stage) (i : ℕ) : Prop :=
  ∀ j < n, ∀ s ∈ stages, shareOf Shard.proportionalSplit j n slotWeights s.target ≤
    shareOf Shard.proportionalSplit i n slotWeights s.target

theorem exists_busiest (hw : Weighs n slotWeights) (hn : 1 ≤ n) (hlt : n < 2 ^ 32)
    (stages : List Stage) : ∃ i < n, Busiest n slotWeights stages i := by
  suffices h : ∃ i < n, ∀ (t : U32) (j x y : ℕ), (sharesOf n slotWeights t)[i]? = some x →
      (sharesOf n slotWeights t)[j]? = some y → y ≤ x by
    obtain ⟨i, hi, h⟩ := h
    exact ⟨i, hi, fun j hj s _ => h s.target j _ _ (sharesOf_getElem? hw hlt hi)
      (sharesOf_getElem? hw hlt hj)⟩
  cases slotWeights
  case none =>
    refine ⟨0, hn, fun t j x y hx hy => ?_⟩
    obtain ⟨_, rfl⟩ := List.getElem?_eq_some_iff.mp hx
    obtain ⟨_, rfl⟩ := List.getElem?_eq_some_iff.mp hy
    simpa [sharesOf, evenShares] using evenShare_le_first t n j
  case some w =>
    obtain ⟨i, hi, h⟩ := exists_largest_share (hw.sum_pos hn)
    exact ⟨i, (hw w rfl).left ▸ hi, fun t => h t⟩

theorem shareOf_le (hw : Weighs n slotWeights) (hn : n < 2 ^ 32) (hi : i < n) :
    shareOf Shard.proportionalSplit i n slotWeights t ≤ t := by
  have hm := List.mem_of_getElem? (sharesOf_getElem? (t := t) hw hn hi)
  have hle := List.single_le_sum (fun _ _ => Nat.zero_le _) _ hm
  rwa [sharesOf_sum hw (by omega)] at hle

-- The largest of the shares is at least the average.
theorem le_mul_share (hw : Weighs n slotWeights) (hn : n < 2 ^ 32) (hi : i < n)
    {stages : List Stage} (hb : Busiest n slotWeights stages i) {s : Stage} (hs : s ∈ stages) :
    s.target.val ≤ n * (shareOf Shard.proportionalSplit i n slotWeights s.target).val := by
  have hle := List.sum_le_card_nsmul (sharesOf n slotWeights s.target)
    (shareOf Shard.proportionalSplit i n slotWeights s.target).val fun x hx => by
      obtain ⟨j, hj, rfl⟩ := List.getElem_of_mem hx
      rw [sharesOf_length hw] at hj
      have he := sharesOf_getElem? (t := s.target) hw hn hj
      rw [List.getElem?_eq_getElem, Option.some.injEq] at he
      exact he.trans_le (hb j hj s hs)
  rwa [sharesOf_sum hw (by omega), sharesOf_length hw, smul_eq_mul] at hle

-- The only worker keeps the whole total.
theorem shareOf_single (hw : Weighs 1 slotWeights) :
    shareOf Shard.proportionalSplit 0 1 slotWeights t = t := by
  have hl := sharesOf_length (t := t) hw
  have hs := sharesOf_sum (t := t) hw le_rfl
  have hg := sharesOf_getElem? (t := t) hw (by decide) Nat.zero_lt_one
  obtain ⟨x, hx⟩ := List.length_eq_one_iff.mp hl
  rw [hx] at hs hg
  simp only [List.sum_singleton, List.getElem?_cons_zero, Option.some.injEq] at hs hg
  exact Fin.ext (hg.symm.trans hs)

theorem stages_reducePoolProfile {profile : Pb.Profile} {vuCount : ℕ} (hs : profile.stages ≠ [])
    (hw : Weighs n slotWeights) (hi : i < n) :
    (reducePoolProfile profile i n vuCount slotWeights).stages =
      retarget (shareOf Shard.proportionalSplit i n slotWeights) profile.stages := by
  have ho : (!profile.stages.isEmpty) = true := by simpa using hs
  simp only [reducePoolProfile, ho, Bool.or_true, Bool.not_true, Bool.false_eq_true, false_and,
    or_false, if_true]
  split
  case isTrue hn =>
    obtain rfl : n = 1 := by omega
    obtain rfl : i = 0 := by omega
    have he : shareOf Shard.proportionalSplit 0 1 slotWeights = id :=
      funext fun _ => shareOf_single hw
    simp [retarget, he]
  case isFalse hn => rfl

-- However a curve is shared out among at most `nMax` workers, the one with the largest share has
-- its first arrival in time.
theorem firstArrival_bound {state : AppState} {p : Profile} {metas : List DatasetMeta} {nMax : ℕ}
    (h : validateRunConfig state p = .ok metas) (hs : p.hasStages) (hn : 1 ≤ n) (hle : n ≤ nMax)
    (hlt : nMax < 2 ^ 32) (hw : Weighs n slotWeights) (vuCount : ℕ) :
    (∃ i < n, Busiest n slotWeights (Pb.toProtoProfile p).stages i) ∧
    ∀ i < n, Busiest n slotWeights (Pb.toProtoProfile p).stages i →
      ∃ t ≤ (leadingIdleSecs (Pb.toProtoProfile p) : ℝ) +
          curveFirstArrivalSecs Real.sqrt (Pb.toProtoProfile p) nMax,
        (timeAt Real.sqrt (new
          (reducePoolProfile (Pb.toProtoProfile p) i n vuCount slotWeights).stages) (1 / 2)).2 =
          some t := by
  refine ⟨exists_busiest hw hn (by omega) _, fun i hi hb => ?_⟩
  obtain ⟨hc, hd, s, hm, h0⟩ := stages_of_validate h hs
  have hv : (Pb.toProtoProfile p).vuStages = [] := by
    simp only [Profile.isVuCurve] at hc
    cases hvs : p.vuStages <;> simp_all [Pb.toProtoProfile]
  have hne : (Pb.toProtoProfile p).stages ≠ [] := List.ne_nil_of_mem hm
  obtain ⟨stage, hf⟩ : ∃ stage, (Pb.toProtoProfile p).stages.find? (·.target ≠ 0) = some stage :=
    Option.isSome_iff_exists.mp (List.find?_isSome.mpr ⟨s, hm, by simpa using h0⟩)
  have hstage := List.mem_of_find?_eq_some hf
  have hd := hd stage hstage
  have ht : 1 ≤ stage.target.val := by
    have ht := List.find?_some hf
    exact Nat.pos_of_ne_zero (Fin.val_ne_zero_iff.mpr (by simpa using ht))
  have hshare := le_mul_share hw (by omega) hi hb hstage
  have hmax := share_reaches hd ht (hshare.trans (Nat.mul_le_mul_right _ hle))
  have hz : shareOf Shard.proportionalSplit i n slotWeights 0 = 0 :=
    le_antisymm (shareOf_le hw (by omega) hi) (Fin.zero_le _)
  obtain ⟨t, ht, he⟩ := firstArrival_of_share hz hf hd (Nat.cast_nonneg _)
    (by exact_mod_cast min_le_right _ _) hmax
  rw [stages_reducePoolProfile hne hw hi]
  refine ⟨t, ht.trans_eq ?_, he⟩
  simp only [leadingIdleSecs, curveFirstArrivalSecs, hv, List.isEmpty_nil, Bool.not_true,
    Bool.false_eq_true, if_false, hf, if_neg (Nat.ne_of_gt hd), max_eq_left (hn.trans hle)]

-- A slow ramp after three idle seconds.
def slowRamp : Profile :=
  { fixedRateLaunch.profile with
    durationSeconds := 0, targetRps := none, stages := some [⟨0, 3⟩, ⟨7, 100⟩] }

theorem firstArrival_bound_slowRamp : ∃ i < 2,
    ∃ t ≤ (leadingIdleSecs (Pb.toProtoProfile slowRamp) : ℝ) +
      curveFirstArrivalSecs Real.sqrt (Pb.toProtoProfile slowRamp) 4,
    (timeAt Real.sqrt (new
      (reducePoolProfile (Pb.toProtoProfile slowRamp) i 2 3 (some [1, 2])).stages) (1 / 2)).2 =
      some t := by
  have hv : validateRunConfig defaultState slowRamp = .ok [] := rfl
  have hw : Weighs 2 (some [1, 2]) := by simp [Weighs]
  obtain ⟨⟨i, hi, hb⟩, h⟩ :=
    firstArrival_bound hv (by decide) (by decide) (show 2 ≤ 4 by decide) (by decide) hw 3
  exact ⟨i, hi, h i hi hb⟩

end Share

end Api
