import Mathlib.Data.List.Count
import Mathlib.Data.List.Nodup
import Mathlib.Data.List.Perm.Subperm

-- Names that are made distinct by numbering their repetitions.
namespace Renaming

variable {α : Type*} [DecidableEq α] {l pre : List α} {a b : α} {m n : ℕ}

-- Each name with the number of its occurrence, counted from one, where the names of `pre` came
-- before.
def occurrences (pre : List α) : List α → List (α × ℕ)
  | []     => []
  | a :: l => (a, pre.count a + 1) :: occurrences (a :: pre) l

-- The first occurrence keeps the name, and each further one gets a suffix.
def numbered (suffixed : α → ℕ → α) (o : α × ℕ) : α :=
  if o.2 = 1 then o.1 else suffixed o.1 o.2

theorem mem_occurrences :
    (a, n) ∈ occurrences pre l ↔ pre.count a < n ∧ n ≤ pre.count a + l.count a := by
  induction l generalizing pre
  case nil => simp [occurrences]
  case cons b l ih =>
    rw [occurrences, List.mem_cons, ih, Prod.mk.injEq]
    by_cases h : b = a
    case pos => subst h; simp; omega
    case neg => simp [h, Ne.symm h]

theorem occurrences_nodup : (occurrences pre l).Nodup := by
  induction l generalizing pre
  case nil => exact .nil
  case cons b l ih =>
    refine List.nodup_cons.mpr ⟨fun h => ?_, ih⟩
    have hlt := (Iff.mp mem_occurrences h).left
    simp at hlt

-- A suffix tells its name and its number, and is never empty.
structure Readable (suffixed : α → ℕ → α) : Prop where
  injective : ∀ {a b m n}, suffixed a m = suffixed b n → a = b ∧ m = n
  ne        : ∀ {a n}, suffixed a n ≠ a

-- The new names are distinct just if none of the suffixed ones is a name that is kept.
theorem numbered_nodup_iff {suffixed : α → ℕ → α} (h : Readable suffixed) :
    ((occurrences [] l).map (numbered suffixed)).Nodup ↔
      ∀ a n, 2 ≤ n → n ≤ l.count a → suffixed a n ∉ l := by
  rw [List.nodup_map_iff_inj_on occurrences_nodup]
  constructor
  case mp =>
    intro hi a n h2 hn hm
    have hc := List.count_pos_iff.mpr hm
    have he := hi (a, n) (Iff.mpr mem_occurrences (by simp; omega)) (suffixed a n, 1)
      (Iff.mpr mem_occurrences (by simp; omega)) (by simp [numbered]; omega)
    exact h.ne (Prod.mk.inj he).left.symm
  case mpr =>
    rintro hd ⟨a, m⟩ ha ⟨b, n⟩ hb he
    have hm := Iff.mp mem_occurrences ha
    have hn := Iff.mp mem_occurrences hb
    simp only [List.count_nil, Nat.zero_add] at hm hn
    simp only [numbered] at he
    split at he <;> split at he
    case isTrue.isTrue h1 h2 => rw [he, h1, h2]
    case isTrue.isFalse h1 h2 =>
      exact absurd (List.count_pos_iff.mp (by omega)) (he ▸ hd b n (by omega) hn.right)
    case isFalse.isTrue h1 h2 =>
      exact absurd (List.count_pos_iff.mp (by omega)) (he ▸ hd a m (by omega) hm.right)
    case isFalse.isFalse h1 h2 => exact Prod.ext_iff.mpr (h.injective he)

-- The first of some candidates that is not taken.
def firstFree (candidate : ℕ → α) (taken : List α) : ℕ → ℕ → Option α
  | 0, _        => none
  | fuel + 1, n =>
    if candidate n ∈ taken then firstFree candidate taken fuel (n + 1) else some (candidate n)

section

variable {candidate : ℕ → α} {taken : List α} {fuel : ℕ}

theorem firstFree_spec (h : ∃ m, n ≤ m ∧ m < n + fuel ∧ candidate m ∉ taken) :
    ∃ m, m < n + fuel ∧ firstFree candidate taken fuel n = some (candidate m) ∧
      candidate m ∉ taken := by
  induction fuel generalizing n
  case zero =>
    obtain ⟨m, hl, hu, -⟩ := h
    omega
  case succ fuel ih =>
    obtain ⟨m, hl, hu, hm⟩ := h
    rw [firstFree]
    split
    case isFalse hn => exact ⟨n, by omega, rfl, hn⟩
    case isTrue hn =>
      have hne : n ≠ m := fun he => hm (he ▸ hn)
      obtain ⟨k, hk, hf, hfree⟩ := ih (n := n + 1) ⟨m, by omega, by omega, hm⟩
      exact ⟨k, by omega, hf, hfree⟩

-- Of one candidate more than there are names, one is free.
theorem exists_free (hc : Function.Injective candidate) (taken : List α) (n : ℕ) :
    ∃ m, n ≤ m ∧ m < n + (taken.length + 1) ∧ candidate m ∉ taken := by
  by_contra hall
  have hsub : (List.range' n (taken.length + 1)).map candidate ⊆ taken := by
    intro a ha
    obtain ⟨m, hm, rfl⟩ := List.mem_map.mp ha
    have hr := List.mem_range'_1.mp hm
    by_contra hn
    exact hall ⟨m, hr.left, hr.right, hn⟩
  have hnd : ((List.range' n (taken.length + 1)).map candidate).Nodup :=
    List.Nodup.map hc List.nodup_range'
  have hl := (List.subperm_of_subset hnd hsub).length_le
  rw [List.length_map, List.length_range'] at hl
  exact absurd hl (Nat.not_succ_le_self _)

end

end Renaming
