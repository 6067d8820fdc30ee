import Handicap.Library.Word
import Mathlib.Data.List.Nodup

-- Logs of numbers that several sources have given out.
namespace Serial

variable {ι α : Type*} [DecidableEq ι] {i j : ι} {x : α} {log : List (ι × α)}

-- The numbers of one source.
def numbers (i : ι) (log : List (ι × α)) : List α :=
  (log.filter (·.1 = i)).map Prod.snd

@[simp]
theorem numbers_nil : numbers i ([] : List (ι × α)) = [] :=
  rfl

@[simp]
theorem numbers_concat_self : numbers i (log ++ [(i, x)]) = numbers i log ++ [x] := by
  simp [numbers]

theorem numbers_concat_of_ne (h : j ≠ i) : numbers i (log ++ [(j, x)]) = numbers i log := by
  simp [numbers, h]

theorem mem_numbers : x ∈ numbers i log ↔ (i, x) ∈ log := by
  simp [numbers]

-- No number is given out twice if no source does so on its own.
theorem nodup_of_numbers (h : ∀ i, (numbers i log).Nodup) : log.Nodup := by
  induction log
  case nil => exact .nil
  case cons e log ih =>
    have hi i : (numbers i log).Nodup :=
      (h i).sublist (((List.sublist_cons_self e log).filter _).map _)
    have he : numbers e.1 (e :: log) = e.2 :: numbers e.1 log := by simp [numbers]
    refine List.nodup_cons.mpr ⟨fun hm => ?_, ih hi⟩
    exact (List.nodup_cons.mp (he ▸ h e.1)).left (mem_numbers.2 hm)

-- The sources may be renamed.
omit [DecidableEq ι] in
theorem nodup_map_source {κ : Type*} {f : ι → κ} (h : log.Nodup)
    (hf : ∀ e ∈ log, ∀ e' ∈ log, f e.1 = f e'.1 → e.1 = e'.1) :
    (log.map fun e => (f e.1, e.2)).Nodup := by
  refine h.map_on fun e he e' he' heq => ?_
  have ⟨hs, hn⟩ := Prod.mk.inj heq
  exact Prod.ext (hf e he e' he' hs) hn

-- A source counts its numbers in words of width `w`.
def Counts (w : ℕ) (i : ι) (log : List (ι × ℕ)) : Prop :=
  numbers i log = (List.range (numbers i log).length).map (Word.cast w)

section Counts

variable {w k : ℕ} {log : List (ι × ℕ)}

theorem counts_nil : Counts w i [] :=
  rfl

theorem Counts.concat_self (h : Counts w i log) (hk : k = Word.cast w (numbers i log).length) :
    Counts w i (log ++ [(i, k)]) := by
  rw [Counts, numbers_concat_self, List.length_append, List.length_singleton, List.range_succ,
    List.map_append, ← h, hk]
  rfl

theorem Counts.nodup (h : Counts w i log) (hl : (numbers i log).length ≤ 2 ^ w) :
    (numbers i log).Nodup := by
  rw [h]
  refine List.nodup_range.map_on fun a ha b hb he => ?_
  rwa [Word.cast_eq ((List.mem_range.mp ha).trans_le hl),
    Word.cast_eq ((List.mem_range.mp hb).trans_le hl)] at he

end Counts

end Serial
