import Handicap.Library.Decimal
import Mathlib.Data.Int.Log
import Mathlib.Data.Rat.Floor
import Mathlib.Tactic.Linarith
import Mathlib.Tactic.NormNum
import Mathlib.Tactic.Positivity
import Mathlib.Tactic.Ring

-- The numbers of 64-bit floating point: the rounding to them, and the decimals they are written as.
namespace Binary64

-- The nearest integer, of two the even one.
def roundEven (q : ℚ) : ℤ :=
  if 2 * (q - ⌊q⌋) < 1 ∨ 2 * (q - ⌊q⌋) = 1 ∧ ⌊q⌋ % 2 = 0 then ⌊q⌋ else ⌊q⌋ + 1

-- The exponent of the last digit that is kept.
def lastExponent (q : ℚ) : ℤ :=
  max (Int.log 2 |q| - 52) (-1074)

def round (q : ℚ) : ℚ :=
  roundEven (q / 2 ^ lastExponent q) * 2 ^ lastExponent q

-- A number that is too large has none.
def nearest (q : ℚ) : Option ℚ :=
  if |round q| < 2 ^ 1024 then some (round q) else none

def Representable (q : ℚ) : Prop :=
  |q| < 2 ^ 1024 ∧ ∃ (m e : ℤ), m.natAbs < 2 ^ 53 ∧ -1074 ≤ e ∧ q = m * 2 ^ e

-- The finite numbers of double precision.
abbrev Double :=
  {q : ℚ // Representable q}

variable {q : ℚ}

theorem roundEven_int (z : ℤ) : roundEven z = z := by
  simp [roundEven]

theorem roundEven_le {z : ℤ} (h : q ≤ z) : roundEven q ≤ z := by
  unfold roundEven
  split
  case isTrue => exact Int.cast_le.mp ((Int.floor_le q).trans h)
  case isFalse hr =>
    -- Below the next integer the number is above its floor.
    have hlt : (⌊q⌋ : ℚ) < z := by
      have hf := (not_or.mp hr).left
      linarith
    exact Int.cast_lt.mp hlt

theorem le_roundEven {z : ℤ} (h : z ≤ q) : z ≤ roundEven q := by
  have hf : z ≤ ⌊q⌋ := Int.le_floor.mpr h
  unfold roundEven
  split
  case isTrue => exact hf
  case isFalse => omega

theorem lastExponent_le {m e : ℤ} (hm : m ≠ 0) (hb : m.natAbs < 2 ^ 53) (he : -1074 ≤ e) :
    lastExponent (m * 2 ^ e) ≤ e := by
  have hpos : (0 : ℚ) < |(m : ℚ) * 2 ^ e| := abs_pos.mpr (mul_ne_zero (Int.cast_ne_zero.mpr hm)
    (zpow_ne_zero e two_ne_zero))
  have hlt : |(m : ℚ) * 2 ^ e| < (2 : ℕ) ^ (53 + e) := by
    have hm : |(m : ℚ)| < 2 ^ 53 := by
      rw [← Int.cast_abs, Int.abs_eq_natAbs]
      exact_mod_cast hb
    have hp : (0 : ℚ) < 2 ^ e := zpow_pos two_pos e
    rw [abs_mul, abs_of_pos hp, Nat.cast_ofNat, zpow_add₀ two_ne_zero]
    exact mul_lt_mul_of_pos_right (by exact_mod_cast hm) hp
  have hlog := (Int.lt_zpow_iff_log_lt (by decide) hpos).mp hlt
  exact max_le (by omega) he

theorem round_representable (h : Representable q) : round q = q := by
  obtain ⟨-, m, e, hm, he, rfl⟩ := h
  by_cases h0 : m = 0
  case pos => simp [h0, round, roundEven]
  case neg =>
    generalize hl : lastExponent (m * 2 ^ e) = l
    have hle : l ≤ e := hl ▸ lastExponent_le h0 hm he
    obtain ⟨k, rfl⟩ : ∃ k : ℕ, e = k + l := ⟨(e - l).toNat, by omega⟩
    have hd : (m : ℚ) * 2 ^ (k + l) / 2 ^ l = (m * 2 ^ k : ℤ) := by
      rw [zpow_add₀ two_ne_zero, ← mul_assoc, mul_div_cancel_right₀ _ (zpow_ne_zero l two_ne_zero)]
      push_cast
      rfl
    rw [round, hl, hd, roundEven_int, ← hd, div_mul_cancel₀ _ (zpow_ne_zero l two_ne_zero)]

theorem nearest_eq_self (h : Representable q) : nearest q = some q := by
  rw [nearest, round_representable h, if_pos h.left]

-- No more digits are kept than there are.
theorem natAbs_roundEven_le : (roundEven (q / 2 ^ lastExponent q)).natAbs ≤ 2 ^ 53 := by
  have hlt : |q| < 2 ^ (53 + lastExponent q) := by
    have h := Int.lt_zpow_succ_log_self (R := ℚ) (b := 2) (by decide) |q|
    refine h.trans_le ?_
    rw [Nat.cast_ofNat]
    refine zpow_le_zpow_right₀ one_le_two ?_
    have hl : Int.log 2 |q| - 52 ≤ lastExponent q := le_max_left ..
    omega
  have hq : |q / 2 ^ lastExponent q| ≤ 2 ^ 53 := by
    have hp : (0 : ℚ) < 2 ^ lastExponent q := zpow_pos two_pos _
    rw [abs_div, abs_of_pos hp, div_le_iff₀ hp]
    rw [zpow_add₀ two_ne_zero] at hlt
    exact_mod_cast hlt.le
  obtain ⟨hlo, hhi⟩ := abs_le.mp hq
  have h₁ : roundEven (q / 2 ^ lastExponent q) ≤ 2 ^ 53 := roundEven_le (by exact_mod_cast hhi)
  have h₂ : -2 ^ 53 ≤ roundEven (q / 2 ^ lastExponent q) := le_roundEven (by exact_mod_cast hlo)
  omega

theorem representable_of_nearest {r : ℚ} (h : nearest q = some r) : Representable r := by
  obtain ⟨hlt, hr⟩ := Option.ite_none_right_eq_some.mp h
  obtain rfl := Option.some.inj hr
  refine ⟨hlt, ?_⟩
  have hle := natAbs_roundEven_le (q := q)
  have he : -1074 ≤ lastExponent q := le_max_right ..
  rw [round]
  generalize roundEven (q / 2 ^ lastExponent q) = n at hle
  generalize lastExponent q = e at he
  obtain hn | hn := hle.lt_or_eq
  case inl => exact ⟨n, e, hn, he, rfl⟩
  case inr =>
    -- All digits are nought but for the first one.
    refine ⟨n.sign, 53 + e, ?_, by omega, ?_⟩
    case refine_1 =>
      rw [Int.natAbs_sign]
      split <;> decide
    case refine_2 =>
      have hsn : n = n.sign * 2 ^ 53 := by
        conv_lhs => rw [← Int.sign_mul_natAbs n, hn]
        push_cast
        rfl
      rw [zpow_add₀ two_ne_zero, ← mul_assoc]
      congr 1
      exact_mod_cast congrArg (Int.cast : ℤ → ℚ) hsn

-- Of two integers next to each other one is even.
theorem roundEven_neg (q : ℚ) : roundEven (-q) = -roundEven q := by
  by_cases hi : q = ⌊q⌋
  case pos =>
    rw [hi, ← Int.cast_neg, roundEven_int, roundEven_int]
  case neg =>
    have hlt : (⌊q⌋ : ℚ) < q := lt_of_le_of_ne (Int.floor_le q) (Ne.symm hi)
    have hf : ⌊-q⌋ = -⌊q⌋ - 1 := by
      rw [Int.floor_eq_iff]
      push_cast
      exact ⟨by linarith [Int.lt_floor_add_one q], by linarith⟩
    unfold roundEven
    rw [hf]
    push_cast
    generalize ⌊q⌋ = z at *
    obtain h | h | h := lt_trichotomy (2 * (q - z)) 1
    case inl =>
      have hn : ¬(2 * (-q - (-z - 1)) < 1 ∨ 2 * (-q - (-z - 1)) = 1 ∧ (-z - 1) % 2 = 0) := by
        rintro (h' | ⟨h', _⟩)
        case inl => linarith
        case inr => linarith
      rw [if_neg hn, if_pos (.inl h)]
      ring
    case inr.inl =>
      have ht : 2 * (-q - (-z - 1)) = 1 := by linarith
      simp only [h, ht, lt_irrefl, false_or, true_and]
      split
      case isTrue hz  => rw [if_neg (by omega)]; ring
      case isFalse hz => rw [if_pos (by omega)]; ring
    case inr.inr =>
      have hn : ¬(2 * (q - z) < 1 ∨ 2 * (q - z) = 1 ∧ z % 2 = 0) := by
        rintro (h' | ⟨h', _⟩)
        case inl => linarith
        case inr => linarith
      rw [if_pos (.inl (by linarith)), if_neg hn]
      ring

theorem round_neg (q : ℚ) : round (-q) = -round q := by
  have he : lastExponent (-q) = lastExponent q := by rw [lastExponent, abs_neg, lastExponent]
  rw [round, he, neg_div, roundEven_neg, Int.cast_neg, neg_mul, round]

theorem Representable.neg (h : Representable q) : Representable (-q) := by
  obtain ⟨hlt, m, e, hm, he, rfl⟩ := h
  refine ⟨by rwa [abs_neg], -m, e, by rwa [Int.natAbs_neg], he, ?_⟩
  rw [Int.cast_neg, neg_mul]

-- The multiples of a power of ten next to the number, the nearer one first.
def neighbours (q : ℚ) (p : ℤ) : List ℕ :=
  let t := q / 10 ^ p
  if 2 * (t - ⌊t⌋) ≤ 1 then [⌊t⌋.toNat, ⌈t⌉.toNat] else [⌈t⌉.toNat, ⌊t⌋.toNat]

-- The decimal with the fewest digits that is rounded to the number.
def shortest (q : ℚ) : Option (ℕ × ℤ) :=
  (List.range' 1 1400).findSome? fun digits : ℕ =>
    let p := Int.log 10 q + 1 - digits
    ((neighbours q p).find? fun s : ℕ => round (s * 10 ^ p) = q).map (·, p)

theorem log_ten_bounds (h : Representable q) (hq : 0 < q) :
    -1074 ≤ Int.log 10 q ∧ Int.log 10 q < 312 := by
  obtain ⟨hlt, m, e, -, he, hm⟩ := h
  constructor
  case left =>
    have hle (n : ℕ) : ((10 : ℕ) : ℚ) ^ (-n : ℤ) ≤ 2 ^ (-n : ℤ) := by
      rw [zpow_neg, zpow_neg, zpow_natCast, zpow_natCast]
      exact inv_anti₀ (pow_pos two_pos n) (pow_le_pow_left₀ zero_le_two (by norm_num) n)
    have hm1 : (1 : ℚ) ≤ m := by
      rw [hm] at hq
      exact_mod_cast pos_of_mul_pos_left hq (zpow_pos two_pos e).le
    rw [← Int.zpow_le_iff_le_log (by decide) hq, hm]
    calc ((10 : ℕ) : ℚ) ^ (-1074 : ℤ) ≤ 2 ^ (-1074 : ℤ) := hle 1074
      _ ≤ 2 ^ e := zpow_le_zpow_right₀ one_le_two he
      _ ≤ m * 2 ^ e := le_mul_of_one_le_left (zpow_pos two_pos e).le hm1
  case right =>
    rw [abs_of_pos hq] at hlt
    rw [← Int.lt_zpow_iff_log_lt (by decide) hq]
    calc q < 2 ^ 1024 := hlt
      _ = (2 ^ 128) ^ 8 := pow_mul 2 128 8
      _ < (10 ^ 39) ^ 8 := pow_lt_pow_left₀ (by norm_num) (by positivity) (by decide)
      _ = ((10 : ℕ) : ℚ) ^ (312 : ℤ) := (pow_mul 10 39 8).symm

-- Far enough behind the point there are no more digits.
theorem exact_decimal (m j n : ℕ) :
    (m : ℚ) * 2 ^ ((j : ℤ) - n) / 10 ^ (-n : ℤ) = (m * 2 ^ j * 5 ^ n : ℕ) := by
  have h10 : (10 : ℚ) ^ n = 2 ^ n * 5 ^ n := by
    rw [← mul_pow]
    norm_num
  rw [zpow_sub₀ two_ne_zero, zpow_neg, zpow_natCast, zpow_natCast, zpow_natCast, h10]
  push_cast
  field_simp

theorem exists_exact_decimal (h : Representable q) (hq : 0 < q) :
    ∃ n : ℕ, q / 10 ^ (-1074 : ℤ) = n := by
  obtain ⟨-, m, e, -, he, rfl⟩ := h
  obtain ⟨j, rfl⟩ : ∃ j : ℕ, e = j - (1074 : ℕ) := ⟨(e + 1074).toNat, by omega⟩
  have hm : 0 ≤ m := by exact_mod_cast (pos_of_mul_pos_left hq (zpow_pos two_pos _).le).le
  obtain ⟨m, rfl⟩ := Int.eq_ofNat_of_zero_le hm
  exact ⟨_, exact_decimal m j 1074⟩

theorem find_neighbour {n : ℕ} {p : ℤ} (hn : q / 10 ^ p = n) (hr : round (n * 10 ^ p) = q) :
    ((neighbours q p).find? fun s : ℕ => round (s * 10 ^ p) = q).isSome := by
  simp [neighbours, hn, hr]

theorem shortest_spec (h : Representable q) (hq : 0 < q) :
    ∃ s p, shortest q = some (s, p) ∧ 0 < s ∧ round (s * 10 ^ p) = q := by
  obtain ⟨hlo, hhi⟩ := log_ten_bounds h hq
  obtain ⟨n, ht⟩ := exists_exact_decimal h hq
  have hsome : (shortest q).isSome := by
    rw [shortest, List.findSome?_isSome_iff]
    refine ⟨(Int.log 10 q + 1075).toNat, ?_, ?_⟩
    case refine_1 => exact List.mem_range'_1.mpr (by omega)
    case refine_2 =>
      have hp : Int.log 10 q + 1 - (Int.log 10 q + 1075).toNat = -1074 := by omega
      have hr : round ((n : ℚ) * 10 ^ (-1074 : ℤ)) = q := by
        rw [← ht, div_mul_cancel₀ _ (zpow_ne_zero _ (by norm_num)), round_representable h]
      simp only [hp, Option.isSome_map]
      exact find_neighbour ht hr
  obtain ⟨⟨s, p⟩, hs⟩ := Option.isSome_iff_exists.mp hsome
  have hfound := hs
  rw [shortest] at hfound
  obtain ⟨digits, -, hd⟩ := List.exists_of_findSome?_eq_some hfound
  obtain ⟨s', hf, he⟩ := Option.map_eq_some_iff.mp hd
  obtain ⟨rfl, rfl⟩ := Prod.mk.inj he
  have hr := List.find?_some hf
  rw [decide_eq_true_eq] at hr
  refine ⟨s', _, hs, Nat.pos_of_ne_zero fun h0 => hq.ne' ?_, hr⟩
  rw [← hr, h0]
  simp [round, roundEven]

-- How numbers are written: with the fewest digits, and with an exponent where the point is far
-- away.
section Text

open Text

def fixed (digits : List Char) (n : ℤ) : List Char :=
  let k : ℤ := digits.length
  if k ≤ n ∧ n ≤ 21 then
    digits ++ List.replicate (n - k).toNat '0'
  else if 0 < n ∧ n ≤ 21 then
    digits.take n.toNat ++ '.' :: digits.drop n.toNat
  else if -6 < n ∧ n ≤ 0 then
    '0' :: '.' :: (List.replicate (-n).toNat '0' ++ digits)
  else
    let e := n - 1
    digits.take 1 ++ (if k = 1 then [] else '.' :: digits.drop 1) ++
      'e' :: (if e < 0 then '-' else '+') :: Nat.toDigits 10 e.natAbs

-- The digits come without zeros at the end.
def positive (q : ℚ) : List Char :=
  match shortest q with
  | none        => []
  | some (s, p) =>
    let all := Nat.toDigits 10 s
    fixed (all.rdropWhile (· = '0')) (all.length + p)

def text (q : ℚ) : List Char :=
  if q = 0 then ['0'] else if q < 0 then '-' :: positive (-q) else positive q

-- A number without a sign in the notation of JSON, and its value.
def Spelled (l : List Char) (q : ℚ) : Prop :=
  ∃ whole point part exp e, l = whole ++ (point ++ (part ++ exp)) ∧ Digits whole ∧
    (whole = ['0'] ∨ ∃ c m, whole = c :: m ∧ c ≠ '0') ∧
    (point = [] ∧ part = [] ∨ point = ['.'] ∧ part ≠ []) ∧ Digits part ∧ IsExponent exp ∧
    exponent exp = some e ∧ q = digitsValue (whole ++ part) * (10 : ℚ) ^ (e - (part.length : ℤ))

variable {l : List Char} {n : ℤ}

theorem digits_toDigits (n : ℕ) : Digits (Nat.toDigits 10 n) :=
  fun _ => Nat.isDigit_of_mem_toDigits (by decide) (by decide)

theorem digits_zeros (n : ℕ) : Digits (List.replicate n '0') := by
  intro c hc
  rw [List.eq_of_mem_replicate hc]
  rfl

theorem isExponent_scientific (e : ℤ) :
    IsExponent ('e' :: (if e < 0 then '-' else '+') :: Nat.toDigits 10 e.natAbs) := by
  refine .inr ⟨'e', by simp, [if e < 0 then '-' else '+'], _, rfl, ?_, Nat.toDigits_ne_nil,
    digits_toDigits _⟩
  split
  case isTrue  => exact .inr (.inr rfl)
  case isFalse => exact .inr (.inl rfl)

theorem exponent_scientific (e : ℤ) :
    exponent ('e' :: (if e < 0 then '-' else '+') :: Nat.toDigits 10 e.natAbs) = some e := by
  have hd : (Nat.toDigits 10 e.natAbs).all Char.isDigit := List.all_eq_true.mpr (digits_toDigits _)
  have hv := digitsValue_toDigits e.natAbs
  split
  case isTrue h =>
    have he : -((e.natAbs : ℕ) : ℤ) = e := by omega
    simp only [exponent, signed, hd, hv, he]
    simp [Nat.toDigits_ne_nil]
  case isFalse h =>
    have he : ((e.natAbs : ℕ) : ℤ) = e := by omega
    simp only [exponent, signed, hd, hv, he]
    simp [Nat.toDigits_ne_nil]

theorem spelled_small {c : Char} {m : List Char} (hd : Digits (c :: m)) (z : ℕ) :
    Spelled ('0' :: '.' :: (List.replicate z '0' ++ c :: m))
    (digitsValue (c :: m) * (10 : ℚ) ^ (-((z + (c :: m).length : ℕ) : ℤ))) := by
  refine ⟨['0'], ['.'], List.replicate z '0' ++ c :: m, [], 0, by simp, by simp [Digits],
    .inl rfl, .inr ⟨rfl, by simp⟩, ?_, .inl rfl, rfl, ?_⟩
  case refine_1 =>
    intro d h
    exact (List.mem_append.mp h).elim (digits_zeros z d) (hd d)
  case refine_2 =>
    have h0 : digitsValue ['0'] = 0 := rfl
    rw [digitsValue_append, digitsValue_append, digitsValue_zeros, h0]
    simp

section

variable {c : Char} {m : List Char} (hd : Digits (c :: m)) (hc : c ≠ '0')

include hd hc

theorem spelled_whole (z : ℕ) : Spelled (c :: m ++ List.replicate z '0')
    (digitsValue (c :: m) * (10 : ℚ) ^ (z : ℤ)) := by
  refine ⟨c :: m ++ List.replicate z '0', [], [], [], 0, by simp, ?_, .inr ⟨c, _, rfl, hc⟩,
    .inl ⟨rfl, rfl⟩, by simp [Digits], .inl rfl, rfl, ?_⟩
  case refine_1 =>
    intro d h
    exact (List.mem_append.mp h).elim (hd d) (digits_zeros z d)
  case refine_2 =>
    rw [List.append_nil, digitsValue_append, digitsValue_zeros]
    simp

theorem spelled_point {whole part : List Char} (h : whole ++ part = c :: m) (hw : whole ≠ [])
    (hp : part ≠ []) : Spelled (whole ++ '.' :: part)
      (digitsValue (c :: m) * (10 : ℚ) ^ (-(part.length : ℤ))) := by
  obtain ⟨d, w, rfl⟩ := List.exists_cons_of_ne_nil hw
  obtain ⟨rfl, hm⟩ := List.cons.inj h
  refine ⟨d :: w, ['.'], part, [], 0, by simp, ?_, .inr ⟨d, w, rfl, hc⟩, .inr ⟨rfl, hp⟩, ?_,
    .inl rfl, rfl, ?_⟩
  case refine_1 => exact fun e he => hd e (h ▸ List.mem_append_left _ he)
  case refine_2 => exact fun e he => hd e (h ▸ List.mem_append_right _ he)
  case refine_3 => rw [h, zero_sub]

theorem spelled_scientific (e : ℤ) :
    Spelled (c :: (if m = [] then [] else '.' :: m) ++
        'e' :: (if e < 0 then '-' else '+') :: Nat.toDigits 10 e.natAbs)
      (digitsValue (c :: m) * (10 : ℚ) ^ (e - (m.length : ℤ))) := by
  refine ⟨[c], if m = [] then [] else ['.'], m, _, e, ?_, ?_, .inr ⟨c, [], rfl, hc⟩, ?_, ?_,
    isExponent_scientific e, exponent_scientific e, rfl⟩
  case refine_1 => by_cases hm : m = [] <;> simp [hm]
  case refine_2 => exact fun d h => hd d (List.mem_cons.mpr (.inl (List.mem_singleton.mp h)))
  case refine_3 =>
    by_cases hm : m = []
    case pos => exact .inl ⟨if_pos hm, hm⟩
    case neg => exact .inr ⟨if_neg hm, hm⟩
  case refine_4 => exact fun d h => hd d (List.mem_cons_of_mem _ h)

theorem fixed_spelled : Spelled (fixed (c :: m) n)
    (digitsValue (c :: m) * (10 : ℚ) ^ (n - ((c :: m).length : ℤ))) := by
  unfold fixed
  simp only
  by_cases ha : ((c :: m).length : ℤ) ≤ n ∧ n ≤ 21
  case pos =>
    rw [if_pos ha]
    have h := spelled_whole hd hc (n - ((c :: m).length : ℤ)).toNat
    rwa [Int.toNat_of_nonneg (by omega)] at h
  rw [if_neg ha]
  by_cases hb : 0 < n ∧ n ≤ 21
  case pos =>
    rw [if_pos hb]
    have hn : n.toNat < (c :: m).length := by omega
    have h := spelled_point hd hc (List.take_append_drop n.toNat (c :: m))
      (by simp; omega) (by simpa using hn)
    rw [List.length_drop] at h
    convert h using 3
    omega
  rw [if_neg hb]
  by_cases hs : -6 < n ∧ n ≤ 0
  case pos =>
    rw [if_pos hs]
    convert spelled_small hd (-n).toNat using 3
    omega
  rw [if_neg hs]
  have h := spelled_scientific hd hc (n - 1)
  have hk : ((c :: m).length : ℤ) = 1 ↔ m = [] := by
    rw [List.length_cons, ← List.length_eq_zero_iff]
    omega
  have he : n - ((c :: m).length : ℤ) = n - 1 - (m.length : ℤ) := by
    rw [List.length_cons]
    omega
  rw [he]
  simpa [hk] using h

end

theorem positive_spelled (h : Representable q) (hq : 0 < q) :
    ∃ r, Spelled (positive q) r ∧ round r = q := by
  obtain ⟨s, p, hs, hpos, hr⟩ := shortest_spec h hq
  obtain ⟨c, l, hl, hc⟩ := toDigits_head hpos
  let zeros := (Nat.toDigits 10 s).rtakeWhile (· = '0')
  have hz : zeros = List.replicate zeros.length '0' :=
    List.eq_replicate_of_mem fun d hd => by simpa using List.mem_rtakeWhile_imp hd
  have hall : (Nat.toDigits 10 s).rdropWhile (· = '0') ++ zeros = Nat.toDigits 10 s :=
    List.rdropWhile_append_rtakeWhile
  have hv := digitsValue_toDigits s
  have hlen := congrArg List.length hall
  refine ⟨s * 10 ^ p, ?_, hr⟩
  rw [positive, hs]
  simp only
  cases hm : (Nat.toDigits 10 s).rdropWhile (· = '0')
  case nil =>
    have h0 := List.rdropWhile_eq_nil_iff.mp hm c (hl ▸ List.mem_cons_self)
    exact absurd (by simpa using h0) hc
  case cons d m =>
    rw [hm] at hall hlen
    have hd : Digits (d :: m) := fun e he =>
      digits_toDigits s e (hall ▸ List.mem_append_left _ he)
    have hdc : d = c := by
      rw [hl] at hall
      exact (List.cons.inj hall).left
    have hf := fixed_spelled hd (hdc ▸ hc) (n := (Nat.toDigits 10 s).length + p)
    rw [← hall, hz, digitsValue_append, digitsValue_zeros, List.length_replicate] at hv
    rw [List.length_append] at hlen
    rw [← hlen] at hf ⊢
    convert hf using 1
    rw [← hv]
    push_cast
    rw [add_assoc, add_sub_cancel_left, zpow_add₀ (by norm_num), zpow_natCast]
    ring

theorem Spelled.decimal (h : Spelled l q) {sign : List Char} (hs : sign = [] ∨ sign = ['-']) :
    Text.decimal (sign ++ l) = some ((if sign = ['-'] then -1 else 1) * q) := by
  obtain ⟨whole, point, part, exp, e, rfl, hw, hlead, hp, hd, he, hexp, hq⟩ := h
  have hne : whole ++ part ≠ [] := by
    obtain rfl | ⟨c, m, rfl, _⟩ := hlead
    case inl => simp
    case inr => simp
  have hsign : IsSign sign := hs.elim .inl fun h => .inr (.inr h)
  rw [decimal_parts hsign hw (hp.imp_right And.left) hd hne he, hexp, hq]
  rw [Option.map_some, mul_assoc]

-- The notation of a number, which is rounded to it.
theorem text_spelled (h : Representable q) : ∃ sign l r, text q = sign ++ l ∧
    (sign = [] ∨ sign = ['-'] ∧ q < 0) ∧ Spelled l r ∧
    round ((if sign = ['-'] then -1 else 1) * r) = q := by
  obtain hq | rfl | hq := lt_trichotomy q 0
  case inl =>
    obtain ⟨r, hs, hr⟩ := positive_spelled h.neg (neg_pos.mpr hq)
    refine ⟨['-'], _, r, by rw [text, if_neg hq.ne, if_pos hq]; rfl, .inr ⟨rfl, hq⟩, hs, ?_⟩
    rw [if_pos rfl, neg_one_mul, round_neg, hr, neg_neg]
  case inr.inl =>
    refine ⟨[], ['0'], 0, rfl, .inl rfl, ?_, by simp [round, roundEven]⟩
    exact ⟨['0'], [], [], [], 0, rfl, by simp [Digits], .inl rfl, .inl ⟨rfl, rfl⟩, by simp [Digits],
      .inl rfl, rfl, by simp [digitsValue]⟩
  case inr.inr =>
    obtain ⟨r, hs, hr⟩ := positive_spelled h hq
    refine ⟨[], _, r, by rw [text, if_neg hq.ne', if_neg hq.not_gt]; rfl, .inl rfl, hs, ?_⟩
    simpa using hr

end Text

end Binary64
