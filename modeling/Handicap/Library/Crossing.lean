import Mathlib.Algebra.Order.Field.Basic
import Mathlib.Algebra.Order.Archimedean.Real.Basic
import Mathlib.Order.Bounds.Basic
import Mathlib.Order.Monotone.Defs
import Mathlib.Tactic.Linarith

-- Where a function reaches a value for the first time, from a start on.
namespace Crossing

section

variable {α β : Type*} [LinearOrder α] [LinearOrder β]

-- The first argument with the value, before which all values are smaller. If there is none they all
-- are.
def IsFirst (f : α → β) (a : α) (v : β) : Option α → Prop
  | some t => a ≤ t ∧ f t = v ∧ ∀ s, a ≤ s → s < t → f s < v
  | none   => ∀ s, a ≤ s → f s < v

namespace IsFirst

variable {f : α → β} {a s t : α} {v v' : β} {o o' : Option α}

theorem eq_some_iff (h : IsFirst f a v o) : o = some t ↔ IsLeast {t | a ≤ t ∧ f t = v} t := by
  cases o
  case none => simpa using fun hl : IsLeast _ _ => (h t hl.1.1).ne hl.1.2
  case some t' =>
    have hl : IsLeast {t | a ≤ t ∧ f t = v} t' :=
      ⟨⟨h.1, h.2.1⟩, fun s hs => not_lt.mp fun hlt => (h.2.2 s hs.1 hlt).ne hs.2⟩
    rw [Option.some_inj]
    exact ⟨fun he => he ▸ hl, hl.unique⟩

theorem eq_none_iff (h : IsFirst f a v o) : o = none ↔ ∀ t, a ≤ t → f t ≠ v := by
  cases o
  case none => simpa using fun t ht => (h t ht).ne
  case some t' => simpa using ⟨t', h.1, h.2.1⟩

theorem congr {g : α → β} (h : IsFirst f a v o) (hg : ∀ s, a ≤ s → g s = f s) :
    IsFirst g a v o := by
  cases o
  case none => exact fun s hs => hg s hs ▸ h s hs
  case some t => exact ⟨h.1, (hg t h.1).trans h.2.1, fun s hs hst => hg s hs ▸ h.2.2 s hs hst⟩

-- A smaller value has been reached before.
theorem lower (h : IsFirst f a v o) (h' : IsFirst f a v' o') (hv : v ≤ v') (ho : o' = some t) :
    ∃ s ≤ t, o = some s := by
  subst ho
  cases o
  case none => exact absurd (h t h'.1) (not_lt.mpr (hv.trans h'.2.1.ge))
  case some s =>
    refine ⟨s, not_lt.mp fun hlt => ?_, rfl⟩
    exact absurd (h.2.2 t h'.1 hlt) (not_lt.mpr (hv.trans h'.2.1.ge))

-- A value that is not above one that is taken has been reached by then.
theorem of_le (h : IsFirst f a v o) (ha : a ≤ s) (hv : v ≤ f s) : ∃ t ≤ s, o = some t := by
  cases o
  case none => exact absurd (h s ha) hv.not_gt
  case some t => exact ⟨t, not_lt.mp fun hlt => (h.2.2 s ha hlt).not_ge hv, rfl⟩

-- A value that has been exceeded has been reached.
theorem of_lt (h : IsFirst f a v o) (ha : a ≤ s) (hv : v < f s) (hf : MonotoneOn f (Set.Ici a)) :
    ∃ t < s, o = some t := by
  cases o
  case none => exact absurd (h s ha) hv.not_gt
  case some t =>
    refine ⟨t, not_le.mp fun hle => ?_, rfl⟩
    exact absurd (hf ha h.1 hle) (not_le.mpr (h.2.1 ▸ hv))

theorem le_of_lt (h : IsFirst f a v o) (ha : a ≤ s) (ho : o = some t) (ht : t < s)
    (hf : MonotoneOn f (Set.Ici a)) : v ≤ f s := by
  subst ho
  exact h.2.1 ▸ hf h.1 ha ht.le

end IsFirst

-- The values before a later start do not matter if they are smaller, and those after it may be
-- counted from another one.
theorem IsFirst.extend {α β : Type*} [LinearOrder α] [LinearOrder β] [AddCommGroup β]
    [IsOrderedAddMonoid β] {f g : α → β} {a b : α} {v w c : β} {o : Option α}
    (h : IsFirst g b w o) (hab : a ≤ b) (hf : ∀ s, b ≤ s → f s = c + g s)
    (hlow : ∀ s, a ≤ s → s < b → f s < v) (hv : v = c + w) : IsFirst f a v o := by
  have hlt (s : α) (hs : a ≤ s) (hg : b ≤ s → g s < w) : f s < v := by
    obtain hsb | hsb := lt_or_ge s b
    case inl => exact hlow s hs hsb
    case inr =>
      rw [hf s hsb, hv]
      exact add_lt_add_right (hg hsb) c
  cases o
  case none => exact fun s hs => hlt s hs (h s)
  case some t =>
    refine ⟨hab.trans h.1, ?_, fun s hs hst => hlt s hs fun hsb => h.2.2 s hsb hst⟩
    rw [hf t h.1, h.2.1, hv]

end

-- The half-integers that have been reached count the value, rounded.
theorem count_halves {f : ℝ → ℝ} {a s : ℝ} {o : ℕ → Option ℝ}
    (h : ∀ k : ℕ, IsFirst f a (k + 1 / 2) (o k)) (hf : MonotoneOn f (Set.Ici a)) (ha : a ≤ s)
    (h0 : 0 ≤ f s) : ∃ n : ℕ, (∀ k, (∃ t < s, o k = some t) ↔ k < n) ∧ |n - f s| ≤ 1 / 2 := by
  have hlower (j k : ℕ) (hjk : j ≤ k) (hk : ∃ t < s, o k = some t) : ∃ t < s, o j = some t := by
    obtain ⟨t, ht, ho⟩ := hk
    obtain ⟨t', ht', ho'⟩ := (h j).lower (h k) (by gcongr) ho
    exact ⟨t', ht'.trans_lt ht, ho'⟩
  have hle (k : ℕ) (hk : ∃ t < s, o k = some t) : (k + 1 / 2 : ℝ) ≤ f s := by
    obtain ⟨t, ht, ho⟩ := hk
    exact (h k).le_of_lt ha ho ht hf
  have hex : ∃ n, ¬∃ t < s, o n = some t := by
    obtain ⟨n, hn⟩ := exists_nat_gt (f s)
    exact ⟨n, fun hk => by linarith [hle n hk]⟩
  classical
  refine ⟨Nat.find hex, fun k => ⟨fun hk => ?_, fun hk => not_not.mp (Nat.find_min hex hk)⟩, ?_⟩
  case refine_1 =>
    by_contra hlt
    exact Nat.find_spec hex (hlower _ k (not_lt.mp hlt) hk)
  case refine_2 =>
    have hup : f s ≤ Nat.find hex + 1 / 2 := by
      by_contra hlt
      obtain ⟨t, ht, ho⟩ := (h (Nat.find hex)).of_lt ha (not_le.mp hlt) hf
      exact Nat.find_spec hex ⟨t, ht, ho⟩
    have hdown : (Nat.find hex : ℝ) - 1 / 2 ≤ f s := by
      cases hn : Nat.find hex
      case zero => simp only [Nat.cast_zero]; linarith
      case succ n =>
        have hk := hle n (not_not.mp (Nat.find_min hex (hn ▸ Nat.lt_succ_self n)))
        rw [Nat.cast_succ]
        linarith
    exact abs_le.mpr ⟨by linarith, by linarith⟩

end Crossing
