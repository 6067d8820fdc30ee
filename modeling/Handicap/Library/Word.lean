import Mathlib.Algebra.Order.Ring.Nat

-- Unsigned machine words of width `w`, as natural numbers below `2 ^ w`. Addition, subtraction and
-- multiplication wrap around, so a result that differs from the exact one is an overflow.
namespace Word

variable {w a b : ℕ}

def cast (w a : ℕ) : ℕ :=
  a % 2 ^ w

def add (w a b : ℕ) : ℕ :=
  (a + b) % 2 ^ w

def sub (w a b : ℕ) : ℕ :=
  (a + (2 ^ w - b)) % 2 ^ w

def mul (w a b : ℕ) : ℕ :=
  a * b % 2 ^ w

def saturatingAdd (w a b : ℕ) : ℕ :=
  min (a + b) (2 ^ w - 1)

def sum (w : ℕ) : List ℕ → ℕ :=
  List.foldl (add w) 0

-- The checked operations have no result where the ones above lose a digit.
def checkedCast (w a : ℕ) : Option ℕ :=
  if a < 2 ^ w then some a else none

def checkedAdd (w a b : ℕ) : Option ℕ :=
  if a + b < 2 ^ w then some (a + b) else none

def checkedSub (a b : ℕ) : Option ℕ :=
  if b ≤ a then some (a - b) else none

def checkedMul (w a b : ℕ) : Option ℕ :=
  if a * b < 2 ^ w then some (a * b) else none

def checkedSum (w : ℕ) : List ℕ → Option ℕ :=
  List.foldlM (checkedAdd w) 0

theorem cast_eq (h : a < 2 ^ w) : cast w a = a :=
  Nat.mod_eq_of_lt h

theorem add_eq (h : a + b < 2 ^ w) : add w a b = a + b :=
  Nat.mod_eq_of_lt h

theorem saturatingAdd_eq (h : a + b < 2 ^ w) : saturatingAdd w a b = a + b :=
  min_eq_left (Nat.le_pred_of_lt h)

theorem mul_eq (h : a * b < 2 ^ w) : mul w a b = a * b :=
  Nat.mod_eq_of_lt h

theorem add_cast : add w (cast w a) b = cast w (a + b) :=
  Nat.mod_add_mod ..

theorem sub_eq (h : b ≤ a) (ha : a < 2 ^ w) : sub w a b = a - b := by
  have hs : a + (2 ^ w - b) = (a - b) + 2 ^ w := by omega
  rw [sub, hs, Nat.add_mod_right]
  exact Nat.mod_eq_of_lt (by omega)

-- A fold of `add` is exact as long as the whole sum fits: every partial sum is at most the total.
theorem foldl_add_eq (l : List ℕ) (h : a + l.sum < 2 ^ w) : l.foldl (add w) a = a + l.sum := by
  induction l generalizing a
  case nil => simp
  case cons hd tl ih =>
    rw [List.sum_cons] at h
    rw [List.foldl_cons, add_eq (by omega), ih (by omega), List.sum_cons, Nat.add_assoc]

theorem sum_eq {l : List ℕ} (h : l.sum < 2 ^ w) : sum w l = l.sum := by
  rw [sum, foldl_add_eq l (by simpa using h), Nat.zero_add]

theorem checkedCast_eq (h : a < 2 ^ w) : checkedCast w a = some a :=
  if_pos h

theorem checkedAdd_eq (h : a + b < 2 ^ w) : checkedAdd w a b = some (a + b) :=
  if_pos h

theorem checkedSub_eq (h : b ≤ a) : checkedSub a b = some (a - b) :=
  if_pos h

theorem checkedMul_eq (h : a * b < 2 ^ w) : checkedMul w a b = some (a * b) :=
  if_pos h

theorem foldlM_checkedAdd_eq (l : List ℕ) (h : a + l.sum < 2 ^ w) :
    l.foldlM (checkedAdd w) a = some (a + l.sum) := by
  induction l generalizing a
  case nil => simp
  case cons hd tl ih =>
    rw [List.sum_cons] at h
    rw [List.foldlM_cons, checkedAdd_eq (by omega), Option.bind_eq_bind, Option.bind_some,
      ih (by omega), List.sum_cons, Nat.add_assoc]

theorem checkedSum_eq {l : List ℕ} (h : l.sum < 2 ^ w) : checkedSum w l = some l.sum := by
  rw [checkedSum, foldlM_checkedAdd_eq l (by simpa using h), Nat.zero_add]

theorem foldlM_checkedAdd_eq_none (l : List ℕ) (ha : a < 2 ^ w) (h : 2 ^ w ≤ a + l.sum) :
    l.foldlM (checkedAdd w) a = none := by
  induction l generalizing a
  case nil => exact absurd h (not_le.mpr ha)
  case cons hd tl ih =>
    rw [List.sum_cons] at h
    rw [List.foldlM_cons]
    by_cases hs : a + hd < 2 ^ w
    case pos =>
      rw [checkedAdd_eq hs]
      exact ih hs (by omega)
    case neg => rw [checkedAdd, if_neg hs]; rfl

theorem checkedSum_eq_none {l : List ℕ} (h : 2 ^ w ≤ l.sum) : checkedSum w l = none :=
  foldlM_checkedAdd_eq_none l (Nat.two_pow_pos w) (by rwa [Nat.zero_add])

end Word
