import Mathlib.Data.Nat.Size
import Mathlib.Tactic.Ring

-- The rounding of integers to a number of binary digits, where a tie goes to the even neighbour.
namespace Rounding

variable {bits : ℕ} {n : ℕ} {z : ℤ}

def roundNat (bits n : ℕ) : ℕ :=
  let k := n.size - bits
  let q := n / 2 ^ k
  let r := n % 2 ^ k
  if 2 ^ k < 2 * r ∨ 2 * r = 2 ^ k ∧ q % 2 = 1 then (q + 1) * 2 ^ k else q * 2 ^ k

def roundInt (bits : ℕ) : ℤ → ℤ
  | .ofNat n   => roundNat bits n
  | .negSucc n => -roundNat bits (n + 1)

theorem roundNat_of_lt (h : n < 2 ^ bits) : roundNat bits n = n := by
  have hk : n.size - bits = 0 := Nat.sub_eq_zero_of_le (Nat.size_le.mpr h)
  simp [roundNat, hk, Nat.mod_one]

theorem le_roundNat {j : ℕ} (hb : 0 < bits) (h : 2 ^ j ≤ n) : 2 ^ j ≤ roundNat bits n := by
  -- The largest power of two that the number reaches is a multiple of the last digit that is kept.
  have hs : j < n.size := Nat.lt_size.mpr h
  obtain ⟨i, hi⟩ : ∃ i, n.size = i + (n.size - bits) + 1 :=
    ⟨n.size - 1 - (n.size - bits), by omega⟩
  generalize hk : n.size - bits = k at hi
  have hn : 2 ^ (i + k) ≤ n := Nat.lt_size.mp (by omega)
  have hq : 2 ^ (i + k) ≤ n / 2 ^ k * 2 ^ k := by
    rw [pow_add] at hn ⊢
    exact Nat.mul_le_mul_right _ ((Nat.le_div_iff_mul_le (Nat.two_pow_pos k)).mpr hn)
  have hp : 2 ^ j ≤ 2 ^ (i + k) := Nat.pow_le_pow_right (by omega) (by omega)
  simp only [roundNat, hk]
  split
  case isTrue  => exact (hp.trans hq).trans (Nat.mul_le_mul_right _ (Nat.le_succ _))
  case isFalse => exact hp.trans hq

theorem roundNat_le : roundNat bits n ≤ 2 ^ n.size := by
  by_cases hk : n.size ≤ bits
  case pos =>
    rw [roundNat_of_lt (Nat.size_le.mp hk)]
    exact (Nat.size_le.mp le_rfl).le
  case neg =>
    generalize hd : n.size - bits = k
    have hp : 2 ^ bits * 2 ^ k = 2 ^ n.size := by
      rw [← pow_add]
      congr 1
      omega
    have hq : n / 2 ^ k < 2 ^ bits := by
      rw [Nat.div_lt_iff_lt_mul (Nat.two_pow_pos k), hp]
      exact Nat.size_le.mp le_rfl
    have hle : (n / 2 ^ k + 1) * 2 ^ k ≤ 2 ^ n.size := hp ▸ Nat.mul_le_mul_right _ hq
    simp only [roundNat, hd]
    split
    case isTrue  => exact hle
    case isFalse => exact (Nat.mul_le_mul_right _ (Nat.le_succ _)).trans hle

theorem roundNat_mono (hb : 0 < bits) : Monotone (roundNat bits) := by
  intro n n' h
  obtain hs | hs := (Nat.size_le_size h).lt_or_eq
  case inl =>
    -- The power of two between the two numbers is between their roundings.
    have hp : 2 ^ n.size ≤ n' := Nat.lt_size.mp hs
    exact roundNat_le.trans (le_roundNat hb hp)
  case inr =>
    simp only [roundNat, hs]
    generalize n'.size - bits = k
    have hp : 0 < 2 ^ k := Nat.two_pow_pos k
    obtain hq | hq := (Nat.div_le_div_right (c := 2 ^ k) h).lt_or_eq
    case inl =>
      have hl : (n / 2 ^ k + 1) * 2 ^ k ≤ n' / 2 ^ k * 2 ^ k := Nat.mul_le_mul_right _ hq
      have hn : n / 2 ^ k * 2 ^ k ≤ (n / 2 ^ k + 1) * 2 ^ k :=
        Nat.mul_le_mul_right _ (Nat.le_succ _)
      have hn' : n' / 2 ^ k * 2 ^ k ≤ (n' / 2 ^ k + 1) * 2 ^ k :=
        Nat.mul_le_mul_right _ (Nat.le_succ _)
      split <;> split <;> omega
    case inr =>
      have hr : n % 2 ^ k ≤ n' % 2 ^ k := by
        have hn := Nat.div_add_mod n (2 ^ k)
        have hn' := Nat.div_add_mod n' (2 ^ k)
        rw [hq] at hn
        omega
      rw [hq]
      have hl : n' / 2 ^ k * 2 ^ k ≤ (n' / 2 ^ k + 1) * 2 ^ k :=
        Nat.mul_le_mul_right _ (Nat.le_succ _)
      split <;> split <;> omega

theorem roundInt_of_lt (h : z.natAbs < 2 ^ bits) : roundInt bits z = z := by
  cases z
  case ofNat n   => exact congrArg Int.ofNat (roundNat_of_lt h)
  case negSucc n => exact congrArg (fun n : ℕ => -(n : ℤ)) (roundNat_of_lt h)

theorem le_natAbs_roundInt (hb : 0 < bits) (h : 2 ^ bits ≤ z.natAbs) :
    2 ^ bits ≤ (roundInt bits z).natAbs := by
  cases z
  case ofNat n   => exact le_roundNat hb h
  case negSucc n => simpa [roundInt] using le_roundNat hb h

theorem roundInt_nonneg (bits : ℕ) (h : 0 ≤ z) : 0 ≤ roundInt bits z := by
  cases z
  case ofNat n   => exact Int.natCast_nonneg _
  case negSucc n => exact absurd h (by simp)

theorem roundInt_nonpos (bits : ℕ) (h : z ≤ 0) : roundInt bits z ≤ 0 := by
  cases z
  case ofNat n =>
    obtain rfl : n = 0 := by simpa using h
    simp [roundInt, roundNat]
  case negSucc n => simp [roundInt]

theorem roundInt_mono (hb : 0 < bits) {z' : ℤ} (h : z ≤ z') :
    roundInt bits z ≤ roundInt bits z' := by
  cases z
  case ofNat n =>
    cases z'
    case ofNat n'   => exact Int.ofNat_le.mpr (roundNat_mono hb (Int.ofNat_le.mp h))
    case negSucc n' =>
      have hn : 0 ≤ Int.ofNat n := Int.natCast_nonneg n
      exact absurd (hn.trans h) (Int.negSucc_not_nonneg n').mp
  case negSucc n =>
    cases z'
    case ofNat n' =>
      have hn := roundInt_nonpos bits (Int.negSucc_lt_zero n).le
      exact hn.trans (roundInt_nonneg bits (Int.natCast_nonneg n'))
    case negSucc n' =>
      have hn : n' + 1 ≤ n + 1 := by omega
      exact neg_le_neg (Int.ofNat_le.mpr (roundNat_mono hb hn))

-- Rounding does not carry a number over a small one.
theorem le_roundInt_iff (hb : 0 < bits) {k : ℤ} (hk : k.natAbs < 2 ^ bits) :
    k ≤ roundInt bits z ↔ k ≤ z := by
  by_cases h : z.natAbs < 2 ^ bits
  case pos => rw [roundInt_of_lt h]
  case neg =>
    have hr := le_natAbs_roundInt hb (not_lt.mp h)
    cases le_total 0 z
    case inl hz =>
      have := roundInt_nonneg bits hz
      omega
    case inr hz =>
      have := roundInt_nonpos bits hz
      omega

-- Only a small number is rounded to it.
theorem eq_of_roundInt_eq (hb : 0 < bits) {k : ℤ} (hk : k.natAbs < 2 ^ bits)
    (h : roundInt bits z = k) : z = k := by
  by_cases hz : z.natAbs < 2 ^ bits
  case pos => exact (roundInt_of_lt hz).symm.trans h
  case neg => exact absurd (h ▸ le_natAbs_roundInt hb (not_lt.mp hz)) hk.not_ge

end Rounding
