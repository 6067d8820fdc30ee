import Mathlib.Algebra.BigOperators.Group.List.Basic
import Mathlib.Algebra.Order.Ring.Nat
import Mathlib.Data.Set.Lattice
import Mathlib.Order.CompletePartialOrder
import Mathlib.Order.Interval.Set.Disjoint

-- Lists of half-open intervals of natural numbers, each given by its offset and its length.
namespace Tiling

variable {a b c : ℕ} {l l' : List (ℕ × ℕ)}

abbrev interval (p : ℕ × ℕ) : Set ℕ :=
  Set.Ico p.1 (p.1 + p.2)

-- The intervals follow each other without gap or overlap, from `a` up to `b`.
def Tiles (a b : ℕ) : List (ℕ × ℕ) → Prop
  | []          => a = b
  | (o, n) :: l => o = a ∧ Tiles (a + n) b l

-- The tiles that start at `a` and have the given lengths.
def ofLengths (a : ℕ) : List ℕ → List (ℕ × ℕ)
  | []     => []
  | n :: l => (a, n) :: ofLengths (a + n) l

theorem ofLengths_tiles (a : ℕ) (l : List ℕ) : Tiles a (a + l.sum) (ofLengths a l) := by
  induction l generalizing a
  case nil => simp [Tiles, ofLengths]
  case cons n l ih =>
    have h := ih (a + n)
    simp only [ofLengths, Tiles, true_and, List.sum_cons]
    rwa [Nat.add_assoc] at h

@[simp]
theorem ofLengths_length (a : ℕ) (l : List ℕ) : (ofLengths a l).length = l.length := by
  induction l generalizing a <;> simp_all [ofLengths]

@[simp]
theorem ofLengths_map_snd (a : ℕ) (l : List ℕ) : (ofLengths a l).map Prod.snd = l := by
  induction l generalizing a <;> simp_all [ofLengths]

namespace Tiles

theorem le (t : Tiles a b l) : a ≤ b := by
  induction l generalizing a
  case nil => exact Nat.le_of_eq t
  case cons p l ih => exact (Nat.le_add_right _ _).trans (ih t.right)

theorem sum (t : Tiles a b l) : a + (l.map Prod.snd).sum = b := by
  induction l generalizing a
  case nil => simpa [Tiles] using t
  case cons p l ih =>
    have h := ih t.right
    simp only [List.map_cons, List.sum_cons]
    omega

theorem append (t : Tiles a b l) (t' : Tiles b c l') : Tiles a c (l ++ l') := by
  induction l generalizing a
  case nil => exact (show a = b from t) ▸ t'
  case cons p l ih => exact ⟨t.left, ih t.right⟩

theorem within {p : ℕ × ℕ} (t : Tiles a b l) (h : p ∈ l) : a ≤ p.1 ∧ p.1 + p.2 ≤ b := by
  induction l generalizing a
  case nil => cases h
  case cons q l ih =>
    obtain ⟨hq, t⟩ := t
    cases h
    case head => exact ⟨hq ▸ le_rfl, hq ▸ t.le⟩
    case tail h =>
      have := ih t h
      omega

theorem consecutive (t : Tiles a b l) (i : ℕ) (h : i + 1 < l.length) :
    l[i].1 + l[i].2 = l[i + 1].1 := by
  induction l generalizing a i
  case nil => simp at h
  case cons p l ih =>
    obtain ⟨hp, t⟩ := t
    cases i
    case succ i => exact ih t i (by simpa using h)
    case zero =>
      cases l
      case nil => simp at h
      case cons q l => simp only [List.getElem_cons_zero, List.getElem_cons_succ, t.left, hp]

theorem pairwise_disjoint (t : Tiles a b l) :
    l.Pairwise (fun p q => Disjoint (interval p) (interval q)) := by
  induction l generalizing a
  case nil => exact .nil
  case cons p l ih =>
    obtain ⟨hp, t⟩ := t
    refine List.pairwise_cons.mpr ⟨fun q hq => ?_, ih t⟩
    have hle := (t.within hq).left
    rw [Set.disjoint_left]
    intro x hx hx'
    simp only [interval, Set.mem_Ico] at hx hx'
    omega

theorem exists_mem_iff (t : Tiles a b l) (x : ℕ) :
    (∃ p ∈ l, x ∈ interval p) ↔ x ∈ Set.Ico a b := by
  induction l generalizing a
  case nil =>
    obtain rfl : a = b := t
    simp
  case cons p l ih =>
    obtain ⟨hp, t⟩ := t
    have hle := t.le
    have ih := ih t
    simp only [List.mem_cons, exists_eq_or_imp, ih]
    simp only [interval, Set.mem_Ico]
    omega

-- What a list has at the intervals, one after another, is what it has at all of them.
theorem pieces {α : Type*} (t : Tiles a b l) (xs : List α) :
    l.flatMap (fun p => (xs.drop p.1).take p.2) = (xs.drop a).take (b - a) := by
  induction l generalizing a
  case nil =>
    obtain rfl : a = b := t
    simp
  case cons p l ih =>
    obtain ⟨hp, t⟩ := t
    have hsum : b - a = p.2 + (b - (a + p.2)) := by
      have := t.le
      omega
    rw [List.flatMap_cons, ih t, hp, hsum, List.take_add, List.drop_drop]

end Tiles

-- A tiling given by the running offset of its intervals.
theorem tiles_map_range (off len : ℕ → ℕ) (n : ℕ) (h : ∀ i < n, off (i + 1) = off i + len i) :
    Tiles (off 0) (off n) ((List.range n).map fun i => (off i, len i)) := by
  induction n
  case zero => simp [Tiles]
  case succ n ih =>
    rw [List.range_succ, List.map_append]
    refine (ih fun i hi => h i (by omega)).append ?_
    simp [Tiles, h n (by omega)]

end Tiling
