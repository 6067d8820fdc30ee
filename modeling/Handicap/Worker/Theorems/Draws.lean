import Handicap.Library.Tiling
import Handicap.Worker.Load
import Mathlib.Data.List.Induction

open Store Tiling
open Engine (DataSet)

namespace Worker.Draws

variable {genRange : ℕ → ℕ → ℕ} {data : String → List DataSet} {ds : DataSet} {w : String} {i : ℕ}
variable {s : Draws} {d : Draw} {draws : List Draw} {offset : String → ℕ}

-- The row of a unique binding that is handed out for one value of its counter.
def uniqueRow (len c : ℕ) : Option ℕ :=
  if len ≤ c then none else some c

theorem step_none (h : (data d.worker)[d.binding]? = none) : step genRange data s d = s := by
  simp [step, h]

theorem step_unique (h : (data d.worker)[d.binding]? = some ds) (hp : ds.policy = .unique) :
    step genRange data s d = {
      cursors := Function.update s.cursors d.worker
        (Function.update (s.cursors d.worker) d.binding (s.cursors d.worker d.binding + 1))
      log := s.log ++ [(d, uniqueRow ds.rows.length (s.cursors d.worker d.binding))] } := by
  simp [step, h, DataSet.selectIndex, hp, uniqueRow]

theorem run_concat :
    run genRange data (draws ++ [d]) = step genRange data (run genRange data draws) d :=
  List.foldl_append

theorem drawn_step_of_ne (genRange : ℕ → ℕ → ℕ) (data : String → List DataSet) (s : Draws)
    (h : ¬(d.worker = w ∧ d.binding = i)) :
    (step genRange data s d).drawn w i = s.drawn w i ∧
      (step genRange data s d).cursors w i = s.cursors w i := by
  simp only [step]
  split
  case h_1 => exact ⟨rfl, rfl⟩
  case h_2 =>
    refine ⟨by simp [drawn, h], ?_⟩
    cases Decidable.em (w = d.worker)
    case inl hw =>
      have hi : i ≠ d.binding := fun hi => h ⟨hw.symm, hi.symm⟩
      simp [hw, hi]
    case inr hw => simp [hw]

-- The draws of a worker from a unique binding yield its rows one after another, and nothing once
-- there are no more.
theorem drawn_unique (hd : (data w)[i]? = some ds) (hp : ds.policy = .unique) :
    (run genRange data draws).drawn w i =
      (List.range ((run genRange data draws).cursors w i)).map (uniqueRow ds.rows.length) := by
  induction draws using List.reverseRecOn
  case nil => rfl
  case append_singleton draws d ih =>
    rw [run_concat]
    cases Decidable.em (d.worker = w ∧ d.binding = i)
    case inr h =>
      have ⟨hw, hc⟩ := drawn_step_of_ne genRange data (run genRange data draws) h
      rw [hw, hc, ih]
    case inl h =>
      obtain ⟨rfl, rfl⟩ := h
      rw [step_unique hd hp]
      simp only [drawn, List.filterMap_append, List.filterMap_cons, List.filterMap_nil,
        Function.update_self, and_self, if_true, List.range_succ, List.map_append, List.map_cons,
        List.map_nil] at ih ⊢
      rw [ih]

theorem drawn_of_none (genRange : ℕ → ℕ → ℕ) (draws : List Draw) (hd : (data w)[i]? = none) :
    (run genRange data draws).drawn w i = [] := by
  induction draws using List.reverseRecOn
  case nil => rfl
  case append_singleton draws d ih =>
    rw [run_concat]
    cases Decidable.em (d.worker = w ∧ d.binding = i)
    case inr h => rwa [(drawn_step_of_ne _ _ _ h).left]
    case inl h =>
      obtain ⟨rfl, rfl⟩ := h
      rwa [step_none hd]

theorem data_of_mem_log {row : Option ℕ} (h : (d, row) ∈ (run genRange data draws).log) :
    ∃ ds, (data d.worker)[d.binding]? = some ds := by
  refine Option.ne_none_iff_exists'.mp fun hd => ?_
  have hn := drawn_of_none genRange draws hd
  have hm : row ∈ (run genRange data draws).drawn d.worker d.binding :=
    List.mem_filterMap.mpr ⟨(d, row), h, by simp⟩
  simp [hn] at hm

-- A row is drawn from a dataset that has it, before the counter goes past it.
theorem lt_of_mem_drawn {k : ℕ} (hu : ∀ w ds, (data w)[i]? = some ds → ds.policy = .unique)
    (h : some k ∈ (run genRange data draws).drawn w i) :
    ∃ ds, (data w)[i]? = some ds ∧ k < ds.rows.length ∧
      k < (run genRange data draws).cursors w i := by
  cases hd : (data w)[i]?
  case none => simp [drawn_of_none _ _ hd] at h
  case some ds =>
    rw [drawn_unique hd (hu w ds hd)] at h
    have ⟨c, hc, hk⟩ := List.mem_map.mp h
    simp only [uniqueRow, Option.ite_none_left_eq_some, not_le, Option.some.injEq] at hk
    exact ⟨ds, rfl, hk.right ▸ hk.left, hk.right ▸ List.mem_range.mp hc⟩

theorem eq_map_range_of_prefix {α : Type*} {f : ℕ → α} {l : List α} {n : ℕ}
    (h : l <+: (List.range n).map f) : l = (List.range l.length).map f := by
  have hn := h.length_le
  rw [List.length_map, List.length_range] at hn
  have ht := List.prefix_iff_eq_take.mp h
  rwa [← List.map_take, List.take_range, min_eq_left hn] at ht

-- A draw yields nothing only if all rows have been drawn before.
theorem drawn_all_of_none {pre : List (Draw × Option ℕ)}
    (hd : (data d.worker)[d.binding]? = some ds) (hp : ds.policy = .unique)
    (h : pre ++ [(d, none)] <+: (run genRange data draws).log) (k : ℕ) (hk : k < ds.rows.length) :
    ∃ d', (d', some k) ∈ pre ∧ d'.worker = d.worker ∧ d'.binding = d.binding := by
  let f : Draw × Option ℕ → Option (Option ℕ) := fun x =>
    if x.1.worker = d.worker ∧ x.1.binding = d.binding then some x.2 else none
  have hf : (pre.filterMap f ++ [none]) <+:
      (List.range ((run genRange data draws).cursors d.worker d.binding)).map
        (uniqueRow ds.rows.length) := by
    rw [← drawn_unique hd hp]
    have hpre := h.filterMap f
    rwa [List.filterMap_append, show [(d, none)].filterMap f = [none] by simp [f]] at hpre
  have heq := eq_map_range_of_prefix hf
  rw [List.length_append, List.length_singleton, List.range_succ, List.map_append] at heq
  have ⟨hl, hnone⟩ := List.append_inj' heq rfl
  have hle : ds.rows.length ≤ (pre.filterMap f).length := by
    simpa [uniqueRow] using List.singleton_injective hnone
  have hmem : some k ∈ pre.filterMap f := by
    rw [hl]
    refine List.mem_map.mpr ⟨k, List.mem_range.mpr (hk.trans_le hle), ?_⟩
    simp [uniqueRow, hk]
  have ⟨(d', row), hx, hfx⟩ := List.mem_filterMap.mp hmem
  simp only [f, Option.ite_none_right_eq_some, Option.some.injEq] at hfx
  exact ⟨d', hfx.right ▸ hx, hfx.left.left, hfx.left.right⟩

-- The rows of a binding that have been handed out, by their position in the whole dataset.
def handedOut (s : Draws) (offset : String → ℕ) (i : ℕ) : List ℕ :=
  s.log.filterMap fun x => if x.1.binding = i then x.2.map (offset x.1.worker + ·) else none

theorem mem_handedOut {x : ℕ} (h : x ∈ s.handedOut offset i) :
    ∃ w k, some k ∈ s.drawn w i ∧ x = offset w + k := by
  have ⟨(d, row), hm, hx⟩ := List.mem_filterMap.mp h
  simp only at hx
  split_ifs at hx with hi
  have ⟨k, hk, hx⟩ := Option.map_eq_some_iff.mp hx
  exact ⟨d.worker, k, List.mem_filterMap.mpr ⟨(d, row), hm, by simp [hi, hk]⟩, hx.symm⟩

theorem handedOut_nodup (hu : ∀ w ds, (data w)[i]? = some ds → ds.policy = .unique)
    (hd : ∀ w w' ds ds', (data w)[i]? = some ds → (data w')[i]? = some ds' → w ≠ w' →
      Disjoint (interval (offset w, ds.rows.length)) (interval (offset w', ds'.rows.length))) :
    ((run genRange data draws).handedOut offset i).Nodup := by
  induction draws using List.reverseRecOn
  case nil => exact .nil
  case append_singleton draws d ih =>
    rw [run_concat]
    cases hds : (data d.worker)[d.binding]?
    case none => rwa [step_none hds]
    case some ds =>
      cases Decidable.em (d.binding = i)
      case inr hi =>
        have hlog : ∃ row, (step genRange data (run genRange data draws) d).log =
            (run genRange data draws).log ++ [(d, row)] := by simp [step, hds]
        have ⟨row, hlog⟩ := hlog
        simpa [handedOut, hlog, hi] using ih
      case inl hi =>
        subst hi
        rw [step_unique hds (hu _ _ hds)]
        cases hc : uniqueRow ds.rows.length ((run genRange data draws).cursors d.worker d.binding)
        case none => simpa [handedOut] using ih
        case some c =>
          have hlt : c < ds.rows.length ∧
              (run genRange data draws).cursors d.worker d.binding = c := by
            simp only [uniqueRow, Option.ite_none_left_eq_some, not_le, Option.some.injEq] at hc
            exact ⟨hc.right ▸ hc.left, hc.right⟩
          have hnew : offset d.worker + c ∉ (run genRange data draws).handedOut offset d.binding := by
            intro hm
            have ⟨w, k, hk, he⟩ := mem_handedOut hm
            have ⟨ds', hds', hk', hck⟩ := lt_of_mem_drawn hu hk
            cases Decidable.em (w = d.worker)
            case inl hw =>
              subst hw
              omega
            case inr hw =>
              have hin : offset w + k ∈ interval (offset w, ds'.rows.length) :=
                ⟨Nat.le_add_right .., Nat.add_lt_add_left hk' _⟩
              have hin' : offset d.worker + c ∈ interval (offset d.worker, ds.rows.length) :=
                ⟨Nat.le_add_right .., Nat.add_lt_add_left hlt.left _⟩
              exact Set.disjoint_left.mp (hd _ _ _ _ hds' hds hw) hin (he ▸ hin')
          have happ := ih.append (List.nodup_singleton _) (List.disjoint_singleton.mpr hnew)
          simpa [handedOut] using happ

end Worker.Draws
