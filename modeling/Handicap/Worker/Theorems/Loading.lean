import Handicap.Worker.Theorems.Load

open Store
open Pb (ServerMessage)

-- When the loading stage of a worker keeps what it promises.
namespace Worker

-- What ends the loading of a run.
def Inbound.Stops (runId : String) : Inbound → Prop
  | .cancelled            => True
  | .message (.abort id _) => id = runId
  | .message _            => False

-- The rows that a stream holds for known bindings, of which there are `n`.
def arrived (n : ℕ) (inbound : List Inbound) : ℕ :=
  ((List.range n).map fun i => (rowsFor i inbound).length).sum

def bucketsOf (n : ℕ) (inbound : List Inbound) : List (List StringMap) :=
  (List.range n).map fun i => rowsFor i inbound

-- The shortest beginning of a stream with as many rows as were promised, if loading gets there.
structure Completes (expected : List ℕ) (runId : String) (inbound before : List Inbound) : Prop where
  isPrefix : before <+: inbound
  runs     : ∀ x ∈ before, ¬x.Stops runId
  enough   : expected.sum ≤ arrived expected.length before
  shortest : ∀ p, p <+: before → p ≠ before → arrived expected.length p < expected.sum

-- Some binding has not got what it was promised.
def Short (expected : List ℕ) (inbound : List Inbound) : Prop :=
  ∃ (i : ℕ) (h : i < expected.length), (rowsFor i inbound).length < expected[i]

-- No binding has got more than it was promised when all rows together are enough.
def NoSurplus (expected : List ℕ) (runId : String) (inbound : List Inbound) : Prop :=
  ∀ before, Completes expected runId inbound before →
    ∀ i (h : i < expected.length), (rowsFor i before).length ≤ expected[i]

-- Every binding has got what it was promised, in a stream that is closed as in one that is ended.
structure NothingShort (expected : List ℕ) (runId : String) (inbound : List Inbound) : Prop where
  closed  : (∀ x ∈ inbound, ¬x.Stops runId) → ¬Short expected inbound
  stopped : ∀ before x after, inbound = before ++ x :: after → x.Stops runId →
    (∀ y ∈ before, ¬y.Stops runId) → ¬Short expected before

structure LoadsExactly (expected : List ℕ) (runId : String) (inbound : List Inbound) : Prop where
  ok      : ∀ buckets, loadDatasets expected runId inbound = some (.ok buckets) →
    ∃ before, before <+: inbound ∧ buckets.length = expected.length ∧
      ∀ i (h : i < expected.length),
        buckets[i]? = some (rowsFor i before) ∧ (rowsFor i before).length = expected[i]
  closed  : (∀ x ∈ inbound, ¬x.Stops runId) → Short expected inbound →
    ∃ got, loadDatasets expected runId inbound = some (.error (.datasetIncomplete got expected.sum))
  stopped : ∀ before x after, inbound = before ++ x :: after → x.Stops runId →
    (∀ y ∈ before, ¬y.Stops runId) → Short expected before →
      loadDatasets expected runId inbound = some (.error .cancelled)

variable {n total i : ℕ} {runId : String} {pre inbound before : List Inbound} {x : Inbound}

theorem rowsFor_append : rowsFor i (pre ++ inbound) = rowsFor i pre ++ rowsFor i inbound := by
  simp [rowsFor]

theorem sum_single (rows : List StringMap) :
    ((List.range n).map fun j => if i = j then rows.length else 0).sum =
      if i < n then rows.length else 0 := by
  induction n
  case zero => simp
  case succ n ih =>
    rw [List.range_succ, List.map_append, List.sum_append, ih]
    simp only [List.map_cons, List.map_nil, List.sum_singleton]
    split_ifs <;> omega

theorem arrived_snoc_batch {id : String} {rows : List StringMap} :
    arrived n (pre ++ [.message (.datasetBatch id rows i)]) =
      arrived n pre + if i < n then rows.length else 0 := by
  have hrows (j : ℕ) : (rowsFor j (pre ++ [.message (.datasetBatch id rows i)])).length =
      (rowsFor j pre).length + if i = j then rows.length else 0 := by
    rw [rowsFor_append, List.length_append]
    split_ifs with h <;> simp [rowsFor, Inbound.message?, ServerMessage.rowsFor, h]
  simp only [arrived, hrows, List.sum_map_add, sum_single]

theorem bucketsOf_snoc_batch {id : String} {rows : List StringMap} :
    bucketsOf n (pre ++ [.message (.datasetBatch id rows i)]) =
      (bucketsOf n pre).modify i (· ++ rows) := by
  refine List.ext_getElem (by simp [bucketsOf]) fun j hj hj' => ?_
  simp only [bucketsOf, List.getElem_map, List.getElem_range, List.getElem_modify, rowsFor_append]
  split_ifs with h <;> simp [rowsFor, Inbound.message?, ServerMessage.rowsFor, h]

-- What holds no batch for a binding changes nothing.
theorem snoc_other (pre) (h : ∀ j < n, rowsFor j [x] = []) :
    arrived n (pre ++ [x]) = arrived n pre ∧ bucketsOf n (pre ++ [x]) = bucketsOf n pre := by
  have hrows : ∀ j ∈ List.range n, rowsFor j (pre ++ [x]) = rowsFor j pre := by
    intro j hj
    rw [rowsFor_append, h j (List.mem_range.mp hj), List.append_nil]
  constructor
  case left  => exact congrArg List.sum (List.map_congr_left fun j hj => by rw [hrows j hj])
  case right => exact List.map_congr_left hrows

theorem fillBuckets_full {got : ℕ} {buckets : List (List StringMap)} (h : total ≤ got) :
    fillBuckets runId total got buckets inbound = .ok buckets := by
  rw [fillBuckets.eq_def, if_pos h]

-- An event that does not end the loading is put behind what has been read.
theorem fillBuckets_step (h : arrived n pre < total) (hx : ¬x.Stops runId) :
    fillBuckets runId total (arrived n pre) (bucketsOf n pre) (x :: inbound) =
      fillBuckets runId total (arrived n (pre ++ [x])) (bucketsOf n (pre ++ [x])) inbound := by
  have hlen : (bucketsOf n pre).length = n := by simp [bucketsOf]
  cases x
  case cancelled => exact absurd trivial hx
  case message m =>
    cases m
    case datasetBatch id rows i =>
      rw [fillBuckets, if_neg (not_le.mpr h), hlen]
      by_cases hi : i < n
      case pos => rw [if_pos hi, arrived_snoc_batch, if_pos hi, bucketsOf_snoc_batch]
      case neg =>
        have hother : ∀ j < n, rowsFor j [.message (.datasetBatch id rows i)] = [] := by
          intro j hj
          have hne : i ≠ j := fun he => hi (he ▸ hj)
          simp [rowsFor, Inbound.message?, ServerMessage.rowsFor, hne]
        rw [if_neg hi, (snoc_other pre hother).1, (snoc_other pre hother).2]
    case abort id reason =>
      rw [fillBuckets, if_neg (not_le.mpr h), (snoc_other pre fun _ _ => rfl).1,
        (snoc_other pre fun _ _ => rfl).2]
      exact if_neg hx
    all_goals
      rw [(snoc_other pre fun _ _ => rfl).1, (snoc_other pre fun _ _ => rfl).2, fillBuckets,
        if_neg (not_le.mpr h)] <;> simp

theorem fillBuckets_stop (h : arrived n pre < total) (hx : x.Stops runId) :
    fillBuckets runId total (arrived n pre) (bucketsOf n pre) (x :: inbound) = .error .cancelled := by
  cases x
  case cancelled => rw [fillBuckets, if_neg (not_le.mpr h)]
  case message m =>
    cases m
    case abort =>
      rw [fillBuckets, if_neg (not_le.mpr h)]
      exact if_pos hx
    all_goals cases hx

-- No beginning of what has been read is enough.
def Few (expected : List ℕ) (pre : List Inbound) : Prop :=
  ∀ p, p <+: pre → arrived expected.length p < expected.sum

-- The three ways in which loading ends.
inductive Outcome (expected : List ℕ) (runId : String) (inbound : List Inbound) :
    Except WorkerError (List (List StringMap)) → Prop
  | completed (start : List Inbound) (h : Completes expected runId inbound start) :
    Outcome expected runId inbound (.ok (bucketsOf expected.length start))
  | stopped (start : List Inbound) (y : Inbound) (after : List Inbound)
    (he : inbound = start ++ y :: after) (hy : y.Stops runId) (hr : ∀ z ∈ start, ¬z.Stops runId)
    (hf : Few expected start) : Outcome expected runId inbound (.error .cancelled)
  | closed (hr : ∀ z ∈ inbound, ¬z.Stops runId) (hf : Few expected inbound) :
    Outcome expected runId inbound
      (.error (.datasetIncomplete (arrived expected.length inbound) expected.sum))

-- By induction on what is left, with what has been read before it.
theorem fillBuckets_outcome {expected : List ℕ} (hr : ∀ y ∈ pre, ¬y.Stops runId)
    (hf : ∀ p, p <+: pre → p ≠ pre → arrived expected.length p < expected.sum) :
    Outcome expected runId (pre ++ inbound)
      (fillBuckets runId expected.sum (arrived expected.length pre)
        (bucketsOf expected.length pre) inbound) := by
  induction inbound generalizing pre
  case nil =>
    by_cases hfull : expected.sum ≤ arrived expected.length pre
    case pos =>
      rw [fillBuckets_full hfull]
      exact .completed pre ⟨List.prefix_append .., hr, hfull, hf⟩
    case neg =>
      have hfew : Few expected pre := fun p hp => by
        by_cases he : p = pre
        case pos => exact he ▸ not_le.mp hfull
        case neg => exact hf p hp he
      rw [fillBuckets, if_neg hfull, List.append_nil]
      exact .closed hr hfew
  case cons x inbound ih =>
    by_cases hfull : expected.sum ≤ arrived expected.length pre
    case pos =>
      rw [fillBuckets_full hfull]
      exact .completed pre ⟨List.prefix_append .., hr, hfull, hf⟩
    case neg =>
      have hfew : Few expected pre := fun p hp => by
        by_cases he : p = pre
        case pos => exact he ▸ not_le.mp hfull
        case neg => exact hf p hp he
      by_cases hx : x.Stops runId
      case pos =>
        rw [fillBuckets_stop (not_le.mp hfull) hx]
        exact .stopped pre x inbound rfl hx hr hfew
      case neg =>
        rw [fillBuckets_step (not_le.mp hfull) hx, ← List.singleton_append, ← List.append_assoc]
        refine ih (fun y hy => ?_) fun p hp hne => ?_
        case refine_1 =>
          cases List.mem_append.mp hy
          case inl hy => exact hr y hy
          case inr hy => exact List.mem_singleton.mp hy ▸ hx
        case refine_2 =>
          cases List.prefix_concat_iff.mp hp
          case inl he => exact absurd he hne
          case inr hp => exact hfew p hp

theorem loadDatasets_outcome {expected : List ℕ} (ha : Allocates expected) :
    ∃ r, loadDatasets expected runId inbound = some r ∧ Outcome expected runId inbound r := by
  have h := @fillBuckets_outcome runId [] inbound expected (by simp) fun p hp hne =>
    absurd (List.prefix_nil.mp hp) hne
  have hz : arrived expected.length [] = 0 := by simp [arrived, rowsFor]
  have hb : bucketsOf expected.length [] = expected.map fun _ => [] := by
    simp [bucketsOf, rowsFor, List.map_const']
  rw [hz, hb] at h
  exact ⟨_, loadDatasets_eq ha, h⟩

section

variable {expected : List ℕ}

theorem bucketsOf_getElem? (h : i < n) : (bucketsOf n pre)[i]? = some (rowsFor i pre) := by
  simp [bucketsOf, h]

-- What runs on is before what stops.
theorem prefix_of_runs {p q : List Inbound} (hp : p <+: inbound) (hr : ∀ y ∈ p, ¬y.Stops runId)
    {after : List Inbound} (he : inbound = q ++ x :: after) (hx : x.Stops runId) : p <+: q := by
  have hq : q ++ [x] <+: inbound := ⟨after, by simp [he]⟩
  cases List.prefix_or_prefix_of_prefix hp hq
  case inl h =>
    cases List.prefix_concat_iff.mp h
    case inl he' => exact absurd hx (hr x (he' ▸ by simp))
    case inr h   => exact h
  case inr h => exact absurd hx (hr x (h.subset (by simp)))

theorem Completes.unique {p q : List Inbound} (hp : Completes expected runId inbound p)
    (hq : Completes expected runId inbound q) : p = q := by
  by_contra hne
  cases List.prefix_or_prefix_of_prefix hp.isPrefix hq.isPrefix
  case inl h => exact absurd (hq.shortest p h hne) (not_lt.mpr hp.enough)
  case inr h => exact absurd (hp.shortest q h (Ne.symm hne)) (not_lt.mpr hq.enough)

-- Where no binding has got too much, all have got what they were promised.
theorem Completes.exact (hc : Completes expected runId inbound before)
    (h : ∀ i (h : i < expected.length), (rowsFor i before).length ≤ expected[i]) :
    ∀ i (h : i < expected.length), (rowsFor i before).length = expected[i] := by
  have hle : List.Forall₂ (· ≤ ·)
      ((List.range expected.length).map fun i => (rowsFor i before).length) expected := by
    refine List.forall₂_iff_get.mpr ⟨by simp, fun i hi hi' => ?_⟩
    simpa using h i hi'
  have he := eq_of_le_of_sum_le hle hc.enough
  intro i hi
  have hi' := congrArg (fun l : List ℕ => l[i]?) he
  simpa [hi] using hi'

theorem not_short_of_completes (hc : Completes expected runId inbound before)
    (h : ∀ i (h : i < expected.length), (rowsFor i before).length ≤ expected[i])
    {stream : List Inbound} (hp : before <+: stream) : ¬Short expected stream := by
  rintro ⟨i, hi, hlt⟩
  obtain ⟨rest, rfl⟩ := hp
  rw [rowsFor_append, List.length_append, hc.exact h i hi] at hlt
  omega

-- What arrives in full is loaded.
theorem loadDatasets_full (ha : Allocates expected) (hr : ∀ x ∈ inbound, ¬x.Stops runId)
    (h : ∀ i (hi : i < expected.length), (rowsFor i inbound).length = expected[i]) :
    ∃ buckets, loadDatasets expected runId inbound = some (.ok buckets) := by
  obtain ⟨r, hl, hout⟩ := @loadDatasets_outcome runId inbound expected ha
  cases hout
  case completed => exact ⟨_, hl⟩
  case stopped start x after he hx _ _ => exact absurd hx (hr x (by simp [he]))
  case closed _ hf =>
    have hsum : arrived expected.length inbound = expected.sum := by
      refine congrArg List.sum (List.ext_getElem (by simp) fun i hi hi' => ?_)
      simpa using h i hi'
    exact absurd (hf inbound (List.prefix_refl _)) (not_lt.mpr hsum.ge)

theorem loadsExactly_of_noSurplus (ha : Allocates expected)
    (h : NoSurplus expected runId inbound) : LoadsExactly expected runId inbound := by
  obtain ⟨r, hl, hout⟩ := @loadDatasets_outcome runId inbound expected ha
  cases hout
  case completed start hs =>
    have hle := h start hs
    refine ⟨fun buckets hb => ?_, fun hr hshort => ?_, fun p x after he hx hr hshort => ?_⟩
    case refine_1 =>
      cases hl.symm.trans hb
      refine ⟨start, hs.isPrefix, by simp [bucketsOf], fun i hi => ?_⟩
      exact ⟨bucketsOf_getElem? hi, hs.exact hle i hi⟩
    case refine_2 => exact absurd hshort (not_short_of_completes hs hle hs.isPrefix)
    case refine_3 =>
      exact absurd hshort (not_short_of_completes hs hle (prefix_of_runs hs.isPrefix hs.runs he hx))
  case stopped start y after he hy hr hf =>
    refine ⟨fun buckets hb => ?_, fun hr hshort => ?_, fun _ _ _ _ _ _ _ => hl⟩
    case refine_1 => cases hl.symm.trans hb
    case refine_2 => exact absurd hy (hr y (by simp [he]))
  case closed hr hf =>
    refine ⟨fun buckets hb => ?_, fun _ _ => ⟨_, hl⟩, fun p x after he hx _ _ => ?_⟩
    case refine_1 => cases hl.symm.trans hb
    case refine_2 => exact absurd hx (hr x (by simp [he]))

theorem noSurplus_of_loadsExactly (ha : Allocates expected)
    (h : LoadsExactly expected runId inbound) : NoSurplus expected runId inbound := by
  intro before hc i hi
  obtain ⟨r, hl, hout⟩ := @loadDatasets_outcome runId inbound expected ha
  cases hout
  case completed start hs =>
    obtain rfl := hs.unique hc
    have ⟨p, _, _, hp⟩ := h.ok _ hl
    have ⟨hrows, hlen⟩ := hp i hi
    rw [bucketsOf_getElem? hi] at hrows
    exact (Option.some.inj hrows ▸ hlen).le
  case stopped start x after he hx hr hf =>
    exact absurd (hf before (prefix_of_runs hc.isPrefix hc.runs he hx)) (not_lt.mpr hc.enough)
  case closed hr hf => exact absurd (hf before hc.isPrefix) (not_lt.mpr hc.enough)

-- A task that panics keeps what it promises if nothing is asked of it.
theorem loadsExactly_iff_nothingShort (ha : ¬Allocates expected) :
    LoadsExactly expected runId inbound ↔ NothingShort expected runId inbound := by
  have hl : loadDatasets expected runId inbound = none := loadDatasets_eq_none ha
  constructor
  case mp =>
    intro h
    constructor
    case closed =>
      intro hr hs
      obtain ⟨_, he⟩ := h.closed hr hs
      cases hl.symm.trans he
    case stopped =>
      intro before x after he hx hr hs
      cases hl.symm.trans (h.stopped before x after he hx hr hs)
  case mpr =>
    intro h
    constructor
    case ok =>
      intro buckets hb
      cases hl.symm.trans hb
    case closed  => exact fun hr hs => absurd hs (h.closed hr)
    case stopped =>
      exact fun before x after he hx hr hs => absurd hs (h.stopped before x after he hx hr)

-- The loading keeps what it promises where no binding makes up for another one. Counts that there
-- is no room for are a panic, so that nothing may be missing then.
theorem loadsExactly_iff_noSurplus (expected : List ℕ) (runId : String) (inbound : List Inbound) :
    LoadsExactly expected runId inbound ↔
      (Allocates expected → NoSurplus expected runId inbound) ∧
      (¬Allocates expected → NothingShort expected runId inbound) := by
  by_cases ha : Allocates expected
  case pos =>
    have h : LoadsExactly expected runId inbound ↔ NoSurplus expected runId inbound :=
      ⟨noSurplus_of_loadsExactly ha, loadsExactly_of_noSurplus ha⟩
    simpa [ha] using h
  case neg => simpa [ha] using loadsExactly_iff_nothingShort ha

-- Two rows for the first binding are taken for one of each.
theorem surplus_hides_shortage :
    loadDatasets [1, 1] "run" [.message (.datasetBatch "run" [∅, ∅] 0)] =
        some (.ok [[∅, ∅], []]) ∧
      ¬LoadsExactly [1, 1] "run" [.message (.datasetBatch "run" [∅, ∅] 0)] := by
  have hl : loadDatasets [1, 1] "run" [.message (.datasetBatch "run" [∅, ∅] 0)] =
      some (.ok [[∅, ∅], []]) := rfl
  refine ⟨hl, fun h => ?_⟩
  obtain ⟨p, _, _, hp⟩ := h.ok _ hl
  obtain ⟨hrows, hlen⟩ := hp 1 (by simp)
  rw [← Option.some.inj hrows] at hlen
  cases hlen

end

end Worker
