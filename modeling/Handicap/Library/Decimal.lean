import Handicap.Library.Text
import Mathlib.Data.List.TakeDrop

-- Which texts spell a number in the decimal notation.
namespace Text

def IsSign (sign : List Char) : Prop :=
  sign = [] ∨ sign = ['+'] ∨ sign = ['-']

def Digits (l : List Char) : Prop :=
  ∀ c ∈ l, c.isDigit

def IsExponent (l : List Char) : Prop :=
  l = [] ∨ ∃ e ∈ ['e', 'E'], ∃ sign digits,
    l = e :: (sign ++ digits) ∧ IsSign sign ∧ digits ≠ [] ∧ Digits digits

-- A text in the decimal notation with an exponent.
def Spells (l : List Char) : Prop :=
  ∃ sign whole point part exp, l = sign ++ (whole ++ (point ++ (part ++ exp))) ∧ IsSign sign ∧
    Digits whole ∧ (point = [] ∧ part = [] ∨ point = ['.']) ∧ Digits part ∧ whole ++ part ≠ [] ∧
    IsExponent exp

-- What cannot come first in a text that begins with a sign.
def Unsigned (l : List Char) : Prop :=
  ∀ c ∈ l.head?, c ≠ '+' ∧ c ≠ '-'

theorem signed_append {sign l : List Char} (hs : IsSign sign) (hl : Unsigned l) :
    signed (sign ++ l) = (decide (sign = ['-']), l) := by
  obtain rfl | rfl | rfl := hs
  case inl =>
    cases l
    case nil => rfl
    case cons c l =>
      have ⟨h, h'⟩ := hl c rfl
      have hm (l') (he : c :: l = '-' :: l') : False := h' (List.cons.inj he).1
      have hp (l') (he : c :: l = '+' :: l') : False := h (List.cons.inj he).1
      rw [List.nil_append, signed.eq_3 _ hm hp]
      rfl
  case inr.inl => rfl
  case inr.inr => rfl

theorem signed_split (l : List Char) : ∃ sign, IsSign sign ∧ l = sign ++ (signed l).2 := by
  unfold signed
  split
  case h_1 l => exact ⟨['-'], .inr (.inr rfl), rfl⟩
  case h_2 l => exact ⟨['+'], .inr (.inl rfl), rfl⟩
  case h_3   => exact ⟨[], .inl rfl, rfl⟩

theorem span_digits {m t : List Char} (hm : Digits m) (ht : ∀ c ∈ t.head?, ¬c.isDigit) :
    (m ++ t).span Char.isDigit = (m, t) := by
  rw [List.span_eq_takeWhile_dropWhile, List.takeWhile_append_of_pos hm,
    List.dropWhile_append_of_pos hm]
  cases t
  case nil => simp
  case cons c t =>
    have hc := ht c rfl
    rw [List.takeWhile_cons_of_neg hc, List.dropWhile_cons_of_neg hc, List.append_nil]

theorem digits_unsigned {l : List Char} (h : Digits l) : Unsigned l := by
  intro c hc
  have hd := h c (List.mem_of_mem_head? hc)
  refine ⟨?_, ?_⟩
  case refine_1 =>
    rintro rfl
    cases hd
  case refine_2 =>
    rintro rfl
    cases hd

theorem exponent_isSome {l : List Char} : (exponent l).isSome ↔ IsExponent l := by
  cases l
  case nil => simp [exponent, IsExponent]
  case cons c l =>
    simp only [exponent, IsExponent, Option.isSome_ite, reduceCtorEq, false_or]
    constructor
    case mp =>
      intro ⟨hc, hne, hd⟩
      have ⟨sign, hs, he⟩ := signed_split l
      exact ⟨c, hc, sign, (signed l).2, by rw [← he], hs, hne, List.all_eq_true.mp hd⟩
    case mpr =>
      rintro ⟨e, he, sign, digits, hl, hs, hne, hd⟩
      obtain ⟨rfl, rfl⟩ := List.cons.inj hl
      rw [signed_append hs (digits_unsigned hd)]
      exact ⟨he, hne, List.all_eq_true.mpr hd⟩

theorem exponent_head {exp : List Char} (he : IsExponent exp) :
    ∀ c ∈ exp.head?, ¬c.isDigit ∧ c ≠ '.' := by
  obtain rfl | ⟨e, hm, sign, digits, rfl, _⟩ := he
  case inl => simp
  case inr =>
    simp only [List.mem_cons, List.not_mem_nil, or_false] at hm
    intro c hc
    obtain rfl : e = c := by simpa using hc
    obtain rfl | rfl := hm
    case inl => decide
    case inr => decide

theorem fraction_point {point part exp : List Char}
    (hp : point = [] ∧ part = [] ∨ point = ['.']) (hd : Digits part) (he : IsExponent exp) :
    fraction (point ++ (part ++ exp)) = (part, exp) := by
  have hexp := exponent_head he
  obtain ⟨rfl, rfl⟩ | rfl := hp
  case inl =>
    cases exp
    case nil => rfl
    case cons c exp =>
      have ⟨_, h⟩ := hexp c rfl
      have hp (l') (he : c :: exp = '.' :: l') : False := h (List.cons.inj he).1
      rw [List.nil_append, List.nil_append, fraction.eq_2 _ hp]
  case inr => exact span_digits hd fun c hc => (hexp c hc).1

-- The value of a text, by its parts.
theorem decimal_parts {sign whole point part exp : List Char} (hs : IsSign sign) (hw : Digits whole)
    (hp : point = [] ∧ part = [] ∨ point = ['.']) (hd : Digits part) (hne : whole ++ part ≠ [])
    (he : IsExponent exp) :
    decimal (sign ++ (whole ++ (point ++ (part ++ exp)))) = (exponent exp).map fun e =>
      (if sign = ['-'] then -1 else 1) * digitsValue (whole ++ part) *
        (10 : ℚ) ^ (e - (part.length : ℤ)) := by
  have hf := fraction_point hp hd he
  have hu : Unsigned (whole ++ (point ++ (part ++ exp))) := by
    cases whole
    case nil =>
      obtain ⟨rfl, rfl⟩ | rfl := hp
      case inl => simp at hne
      case inr =>
        intro c hc
        obtain rfl : '.' = c := by simpa using hc
        decide
    case cons c whole =>
      intro d hc
      obtain rfl : c = d := by simpa using hc
      exact digits_unsigned hw c rfl
  have hr : ∀ c ∈ (point ++ (part ++ exp)).head?, ¬c.isDigit := by
    obtain ⟨rfl, rfl⟩ | rfl := hp
    case inl => exact fun c hc => (exponent_head he c hc).1
    case inr =>
      intro c hc
      obtain rfl : '.' = c := by simpa using hc
      decide
  simp only [decimal, signed_append hs hu, span_digits hw hr, hf]
  rw [if_neg fun h => hne (List.append_eq_nil_iff.mpr h)]
  refine congrArg (fun f => (exponent exp).map f) (funext fun e => ?_)
  simp only [decide_eq_true_eq]

theorem decimal_isSome {l : List Char} : (decimal l).isSome ↔ Spells l := by
  constructor
  case mp =>
    intro h
    have ⟨sign, hs, hl⟩ := signed_split l
    simp only [decimal, List.span_eq_takeWhile_dropWhile] at h
    by_cases hn : (signed l).2.takeWhile Char.isDigit = [] ∧
        (fraction ((signed l).2.dropWhile Char.isDigit)).1 = []
    case pos =>
      rw [if_pos hn] at h
      cases h
    rw [if_neg hn, Option.isSome_map, exponent_isSome] at h
    let t := (signed l).2
    have ht : t = t.takeWhile Char.isDigit ++ t.dropWhile Char.isDigit :=
      List.takeWhile_append_dropWhile.symm
    have hf : ∃ point, t.dropWhile Char.isDigit =
        point ++ ((fraction (t.dropWhile Char.isDigit)).1 ++ (fraction (t.dropWhile Char.isDigit)).2) ∧
        (point = [] ∧ (fraction (t.dropWhile Char.isDigit)).1 = [] ∨ point = ['.']) ∧
        Digits (fraction (t.dropWhile Char.isDigit)).1 := by
      unfold fraction
      split
      case h_1 r hr =>
        rw [List.span_eq_takeWhile_dropWhile]
        exact ⟨['.'], by simp [hr], .inr rfl, fun c => List.mem_takeWhile_imp⟩
      case h_2 => exact ⟨[], rfl, .inl ⟨rfl, rfl⟩, by simp [Digits]⟩
    have ⟨point, hf, hp, hd⟩ := hf
    refine ⟨sign, t.takeWhile Char.isDigit, point, (fraction (t.dropWhile Char.isDigit)).1,
      (fraction (t.dropWhile Char.isDigit)).2, ?_, hs, fun c => List.mem_takeWhile_imp, hp, hd, ?_, h⟩
    case refine_1 =>
      rw [← hf, ← ht]
      exact hl
    case refine_2 =>
      intro hw
      exact hn (List.append_eq_nil_iff.mp hw)
  case mpr =>
    rintro ⟨sign, whole, point, part, exp, rfl, hs, hw, hp, hd, hne, he⟩
    rw [decimal_parts hs hw hp hd hne he, Option.isSome_map, exponent_isSome]
    exact he

end Text
