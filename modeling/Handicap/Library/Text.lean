import Mathlib.Algebra.Field.Rat
import Mathlib.Data.List.DropRight

-- Texts as lists of characters: their trimming, and the decimal numbers that they spell.
namespace Text

section

variable {α : Type*} (p : α → Bool) (l : List α)

def strip : List α :=
  (l.dropWhile p).rdropWhile p

theorem strip_strip : strip p (strip p l) = strip p l := by
  suffices h : (strip p l).dropWhile p = strip p l by
    rw [strip, h]
    exact List.rdropWhile_idempotent p _
  refine List.dropWhile_eq_self_iff.mpr fun hl => ?_
  -- What is left of the text after its front has been stripped is a prefix of it.
  have hp : strip p l <+: l.dropWhile p := List.rdropWhile_prefix p _
  have hd := List.dropWhile_eq_self_iff.mp (List.dropWhile_idempotent p l)
  rw [hp.getElem hl]
  exact hd (hl.trans_le hp.length_le)

-- Only what is stripped is lost.
theorem mem_strip_or {a : α} (h : a ∈ l) : a ∈ strip p l ∨ p a := by
  by_cases ha : p a
  case pos => exact .inr ha
  case neg =>
    have hd : a ∈ l.dropWhile p := by
      rw [← List.takeWhile_append_dropWhile (p := p) (l := l)] at h
      exact (List.mem_append.mp h).resolve_left fun ht => ha (List.mem_takeWhile_imp ht)
    refine .inl ?_
    rw [← List.rdropWhile_append_rtakeWhile (p := p) (l := l.dropWhile p)] at hd
    exact (List.mem_append.mp hd).resolve_right fun ht => ha (List.mem_rtakeWhile_imp ht)

theorem strip_eq_self {p : α → Bool} {l : List α} (h : ∀ a ∈ l, ¬p a) : strip p l = l := by
  have hd : l.dropWhile p = l := List.dropWhile_eq_self_iff.mpr fun _ => h _ (List.getElem_mem _)
  rw [strip, hd]
  exact List.rdropWhile_eq_self_iff.mpr fun hl => h _ (List.getLast_mem hl)

end

section

variable {α : Type*} {p q u : α → Bool} {l m : List α}

-- A text without the front and the back that are stripped.
structure Stripped (p : α → Bool) (l m : List α) : Prop where
  sides : ∃ front back, l = front ++ m ++ back ∧ (∀ a ∈ front, p a) ∧ ∀ a ∈ back, p a
  head  : ∀ a ∈ m.head?, ¬p a
  last  : ∀ a ∈ m.getLast?, ¬p a


theorem strip_stripped (p : α → Bool) (l : List α) : Stripped p l (strip p l) where
  sides := by
    refine ⟨l.takeWhile p, (l.dropWhile p).rtakeWhile p, ?_, fun a => List.mem_takeWhile_imp,
      fun a => List.mem_rtakeWhile_imp⟩
    rw [strip, List.append_assoc, List.rdropWhile_append_rtakeWhile, List.takeWhile_append_dropWhile]
  head a ha := by
    have hs := strip_strip p l
    intro hp
    cases hm : strip p l
    case nil => simp [hm] at ha
    case cons b m =>
      rw [hm] at ha hs
      obtain rfl : b = a := by simpa using ha
      have hl := congrArg List.length hs
      rw [strip, List.dropWhile_cons_of_pos hp] at hl
      have h₁ := (List.rdropWhile_prefix p (m.dropWhile p)).length_le
      have h₂ := (List.dropWhile_suffix (l := m) p).length_le
      rw [List.length_cons] at hl
      omega
  last a ha := by
    intro hp
    have hne : strip p l ≠ [] := by rintro h; simp [h] at ha
    have h := List.rdropWhile_last_not p (l.dropWhile p) hne
    rw [List.getLast?_eq_getLast_of_ne_nil hne] at ha
    obtain rfl : _ = a := by simpa using ha
    exact h hp

theorem Stripped.eq (h : Stripped p l m) : strip p l = m := by
  obtain ⟨front, back, rfl, hf, hb⟩ := h.sides
  have hd : (front ++ m ++ back).dropWhile p = (m ++ back).dropWhile p := by
    rw [List.append_assoc, List.dropWhile_append_of_pos hf]
  rw [strip, hd]
  cases m
  case nil =>
    have hb' : back.dropWhile p = [] := List.dropWhile_eq_nil_iff.mpr hb
    rw [List.nil_append, hb']
    rfl
  case cons a m =>
    rw [List.cons_append, List.dropWhile_cons_of_neg (h.head a rfl), ← List.cons_append]
    have hr : ((a :: m) ++ back).rdropWhile p = (a :: m).rdropWhile p := by
      rw [List.rdropWhile, List.reverse_append, List.dropWhile_append_of_pos (by simpa using hb)]
      rfl
    rw [hr]
    refine List.rdropWhile_eq_self_iff.mpr fun hl => h.last _ ?_
    exact List.getLast?_eq_getLast_of_ne_nil hl

theorem strip_pad {front back : List α} (hf : ∀ a ∈ front, p a) (hb : ∀ a ∈ back, p a) :
    strip p (front ++ l ++ back) = strip p l := by
  have h := strip_stripped p l
  obtain ⟨f, b, he, hf', hb'⟩ := h.sides
  refine Stripped.eq ⟨⟨front ++ f, b ++ back, ?_, fun a ha => ?_, fun a ha => ?_⟩, h.head, h.last⟩
  case refine_1 =>
    have he := congrArg (front ++ · ++ back) he
    exact he.trans (by simp only [List.append_assoc])
  case refine_2 => exact (List.mem_append.mp ha).elim (hf a) (hf' a)
  case refine_3 => exact (List.mem_append.mp ha).elim (hb' a) (hb a)

-- Stripping less before changes nothing.
theorem strip_of_strip (hu : ∀ a, u a → p a) : strip p (strip u l) = strip p l := by
  obtain ⟨front, back, he, hf, hb⟩ := (strip_stripped u l).sides
  have h := strip_stripped p (strip u l)
  obtain ⟨f, b, he', hf', hb'⟩ := h.sides
  refine (Stripped.eq
    ⟨⟨front ++ f, b ++ back, ?_, fun a ha => ?_, fun a ha => ?_⟩, h.head, h.last⟩).symm
  case refine_1 =>
    have he' := congrArg (front ++ · ++ back) he'
    exact he.trans (he'.trans (by simp only [List.append_assoc]))
  case refine_2 => exact (List.mem_append.mp ha).elim (fun h => hu a (hf a h)) (hf' a)
  case refine_3 => exact (List.mem_append.mp ha).elim (hb' a) fun h => hu a (hb a h)

-- The first and the last element.
def edges (l : List α) : List α :=
  l.head?.toList ++ l.getLast?.toList

theorem mem_edges {a : α} : a ∈ edges l ↔ a ∈ l.head? ∨ a ∈ l.getLast? := by
  simp [edges]

theorem mem_of_mem_edges {a : α} (h : a ∈ edges l) : a ∈ l := by
  cases Iff.mp mem_edges h
  case inl h => exact List.mem_of_mem_head? h
  case inr h => exact List.mem_of_mem_getLast? h

theorem edges_strip {a : α} (h : a ∈ edges (strip p l)) : ¬p a := by
  have hs := strip_stripped p l
  cases Iff.mp mem_edges h
  case inl h => exact hs.head a h
  case inr h => exact hs.last a h

-- What is at an edge and is not stripped is at the edge of what is left.
theorem edges_of_edges {a : α} (h : a ∈ edges l) (hp : ¬p a) : a ∈ edges (strip p l) := by
  obtain ⟨front, back, he, hf, hb⟩ := (strip_stripped p l).sides
  have hm : a ∈ strip p l := (mem_strip_or p l (mem_of_mem_edges h)).resolve_right hp
  obtain ⟨b, m, hs⟩ := List.exists_cons_of_ne_nil (List.ne_nil_of_mem hm)
  rw [hs] at he ⊢
  rw [mem_edges] at h ⊢
  refine h.imp (fun h => ?_) fun h => ?_
  case refine_1 =>
    cases front
    case nil => simpa [he] using h
    case cons c front =>
      obtain rfl : c = a := by simpa [he] using h
      exact absurd (hf c List.mem_cons_self) hp
  case refine_2 =>
    cases hb' : back.getLast?
    case none =>
      rw [List.getLast?_eq_none_iff] at hb'
      rw [he, hb', List.append_nil, List.getLast?_append_of_ne_nil _ (List.cons_ne_nil _ _)] at h
      exact h
    case some c =>
      rw [he, List.getLast?_append, hb'] at h
      obtain rfl : c = a := by simpa using h
      exact absurd (hb c (List.mem_of_mem_getLast? hb')) hp

section

variable {k : α} (hp : ∀ a, p a ↔ u a ∧ a ≠ k)

include hp

-- A text without white space is what is left of another one if it is left by whoever takes more for
-- white space, and what is taken in addition is nowhere.
theorem strip_meets {P : List α → Prop} (hP : ∀ m, P m → m ≠ [] ∧ ∀ a ∈ m, ¬u a) (hk : u k) :
    P (strip p l) ↔ P (strip u l) ∧ k ∉ l := by
  have hpu (a : α) (h : p a) : u a := ((hp a).mp h).1
  constructor
  case mp =>
    intro h
    have hs := strip_stripped p l
    obtain ⟨front, back, he, hf, hb⟩ := hs.sides
    have hu := (hP _ h).2
    have hsu : strip u l = strip p l := Stripped.eq
      ⟨⟨front, back, he, fun a ha => hpu a (hf a ha), fun a ha => hpu a (hb a ha)⟩,
        fun a ha => hu a (List.mem_of_mem_head? ha), fun a ha => hu a (List.mem_of_mem_getLast? ha)⟩
    refine ⟨hsu ▸ h, fun hm => ?_⟩
    rw [he, List.mem_append, List.mem_append] at hm
    obtain (hm | hm) | hm := hm
    case inl.inl => exact ((hp k).mp (hf k hm)).2 rfl
    case inl.inr => exact hu k hm hk
    case inr     => exact ((hp k).mp (hb k hm)).2 rfl
  case mpr =>
    intro ⟨h, hn⟩
    have hs := strip_stripped u l
    obtain ⟨front, back, he, hf, hb⟩ := hs.sides
    have hsp : strip p l = strip u l := by
      refine Stripped.eq ⟨⟨front, back, he, fun a ha => ?_, fun a ha => ?_⟩, fun a ha => ?_,
        fun a ha => ?_⟩
      case refine_1 =>
        refine (hp a).mpr ⟨hf a ha, fun hak => hn ?_⟩
        rw [he, ← hak]
        exact List.mem_append_left _ (List.mem_append_left _ ha)
      case refine_2 =>
        refine (hp a).mpr ⟨hb a ha, fun hak => hn ?_⟩
        rw [he, ← hak]
        exact List.mem_append_right _ ha
      case refine_3 => exact fun hpa => hs.head a ha (hpu a hpa)
      case refine_4 => exact fun hpa => hs.last a ha (hpu a hpa)
    rwa [hsp]

end

theorem strip_eq_nil : strip p l = [] ↔ ∀ a ∈ l, p a := by
  constructor
  case mp =>
    intro h a ha
    simpa [h] using mem_strip_or p l ha
  case mpr =>
    intro h
    exact Stripped.eq ⟨⟨l, [], by simp, h, by simp⟩, by simp, by simp⟩

section

variable {k k' : α} (hp : ∀ a, p a ↔ u a ∨ a = k') (hq : ∀ a, q a ↔ u a ∨ a = k)

include hp hq

-- Two that agree on all but two elements strip the same of a text, unless one of the two is at an
-- edge of what is left when both have stripped what they agree on.
theorem strip_eq_strip (hk : ¬p k) (hk' : ¬q k') :
    strip p l = strip q l ↔ k ∉ edges (strip u l) ∧ k' ∉ edges (strip u l) := by
  have hup (a : α) (h : u a) : p a := (hp a).mpr (.inl h)
  have huq (a : α) (h : u a) : q a := (hq a).mpr (.inl h)
  rw [← strip_of_strip hup, ← strip_of_strip huq]
  constructor
  case mp =>
    intro h
    refine ⟨fun hm => ?_, fun hm => ?_⟩
    case refine_1 => exact edges_strip (h ▸ edges_of_edges hm hk) ((hq k).mpr (.inr rfl))
    case refine_2 => exact edges_strip (h ▸ edges_of_edges hm hk') ((hp k').mpr (.inr rfl))
  case mpr =>
    intro ⟨h, h'⟩
    have hedge (a : α) (ha : a ∈ edges (strip u l)) : ¬p a ∧ ¬q a := by
      have hu := edges_strip ha
      refine ⟨fun hpa => ?_, fun hqa => ?_⟩
      case refine_1 => exact ((hp a).mp hpa).elim hu fun hk => h' (hk ▸ ha)
      case refine_2 => exact ((hq a).mp hqa).elim hu fun hk => h (hk ▸ ha)
    have hself {r : α → Bool} (hr : ∀ a ∈ edges (strip u l), ¬r a) : strip r (strip u l) = strip u l :=
      Stripped.eq ⟨⟨[], [], by simp, by simp, by simp⟩, fun a ha => hr a (Iff.mpr mem_edges (.inl ha)),
        fun a ha => hr a (Iff.mpr mem_edges (.inr ha))⟩
    rw [hself fun a ha => (hedge a ha).1, hself fun a ha => (hedge a ha).2]

end

end

section

variable {α : Type*} [DecidableEq α]

-- The parts before and after the first occurrence of a needle.
def cut (needle : List α) : List α → Option (List α × List α)
  | []     => none
  | a :: l =>
    if needle.isPrefixOf (a :: l) then some ([], (a :: l).drop needle.length)
    else (cut needle l).map fun p => (a :: p.1, p.2)

variable {needle l m s : List α}

theorem cut_eq_some (h : cut needle l = some (m, s)) : l = m ++ needle ++ s := by
  induction l generalizing m
  case nil => simp [cut] at h
  case cons a l ih =>
    rw [cut] at h
    split_ifs at h with hp
    case pos =>
      obtain ⟨rfl, rfl⟩ := Prod.mk.inj (Option.some.inj h)
      obtain ⟨t, ht⟩ := List.isPrefixOf_iff_prefix.mp hp
      rw [← ht, List.drop_left, List.nil_append]
    case neg =>
      obtain ⟨p, hp, he⟩ := Option.map_eq_some_iff.mp h
      obtain ⟨rfl, rfl⟩ := Prod.mk.inj he
      rw [ih hp, List.cons_append, List.cons_append]

theorem cut_eq_none (h : cut needle l = none) (hn : needle ≠ []) : ¬needle <:+: l := by
  induction l
  case nil => simpa using hn
  case cons a l ih =>
    rw [cut] at h
    split_ifs at h with hp
    rw [List.infix_cons_iff]
    exact not_or.mpr
      ⟨fun hpre => hp (List.isPrefixOf_iff_prefix.mpr hpre), ih (Option.map_eq_none_iff.mp h)⟩

theorem cut_one {c : α} {l a b : List α} : cut [c] l = some (a, b) ↔ l = a ++ c :: b ∧ c ∉ a := by
  induction l generalizing a
  case nil => simp [cut]
  case cons d l ih =>
    rw [cut]
    by_cases hd : c = d
    case pos =>
      subst hd
      cases a
      case nil => simp [eq_comm]
      case cons d a => simp +contextual [eq_comm]
    case neg =>
      have hp : ¬[c].isPrefixOf (d :: l) := by simpa [List.isPrefixOf] using hd
      rw [if_neg hp]
      simp only [Option.map_eq_some_iff, Prod.exists, Prod.mk.injEq]
      constructor
      case mp =>
        rintro ⟨a, _, h, rfl, rfl⟩
        obtain ⟨rfl, ha⟩ := ih.mp h
        exact ⟨rfl, by simp [hd, ha]⟩
      case mpr =>
        intro ⟨he, ha⟩
        cases a
        case nil => exact absurd (List.cons.inj he).1.symm hd
        case cons d' a =>
          obtain ⟨rfl, rfl⟩ := List.cons.inj he
          exact ⟨a, b, ih.mpr ⟨rfl, fun h => ha (List.mem_cons_of_mem _ h)⟩, rfl, rfl⟩

-- A pair that is looked for comes where its first element does.
theorem cut_pair {c : α} (h : c ∉ l) : cut [c, c] (l ++ c :: c :: s) = some (l, s) := by
  induction l
  case nil => simp [cut]
  case cons d l ih =>
    have hd : c ≠ d := fun he => h (he ▸ List.mem_cons_self)
    have hp : ¬[c, c].isPrefixOf (d :: (l ++ c :: c :: s)) := by simp [List.isPrefixOf, hd]
    rw [List.cons_append, cut, if_neg hp, ih fun hm => h (List.mem_cons_of_mem _ hm)]
    rfl

end

def trim (space : Char → Bool) (s : String) : String :=
  .ofList (strip space s.toList)

@[simp]
theorem trim_trim {space : Char → Bool} {s : String} :
    trim space (trim space s) = trim space s := by
  simp [trim, strip_strip]

def digitsValue (digits : List Char) : ℕ :=
  digits.foldl (fun n c => 10 * n + (c.toNat - '0'.toNat)) 0

theorem foldl_digits_lt {digits : List Char} (h : ∀ c ∈ digits, c.isDigit) (n : ℕ) :
    digits.foldl (fun n c => 10 * n + (c.toNat - '0'.toNat)) n < (n + 1) * 10 ^ digits.length := by
  induction digits generalizing n
  case nil => simp
  case cons c digits ih =>
    have hc := Char.isDigit_iff_toNat.mp (h c List.mem_cons_self)
    have h0 : '0'.toNat = 48 := rfl
    have h9 : '9'.toNat = 57 := rfl
    have hlt := ih (fun c hc => h c (List.mem_cons_of_mem _ hc)) (10 * n + (c.toNat - '0'.toNat))
    refine hlt.trans_le ?_
    rw [List.length_cons, Nat.pow_succ, Nat.mul_comm (10 ^ _), ← Nat.mul_assoc]
    exact Nat.mul_le_mul_right _ (by omega)

theorem digitsValue_lt {digits : List Char} (h : ∀ c ∈ digits, c.isDigit) :
    digitsValue digits < 10 ^ digits.length := by
  simpa [digitsValue] using foldl_digits_lt h 0

theorem digitsValue_append (l m : List Char) :
    digitsValue (l ++ m) = digitsValue l * 10 ^ m.length + digitsValue m := by
  have h (n : ℕ) : m.foldl (fun n c => 10 * n + (c.toNat - '0'.toNat)) n =
      n * 10 ^ m.length + digitsValue m := by
    induction m generalizing n
    case nil => simp [digitsValue]
    case cons c m ih =>
      have hc : digitsValue (c :: m) = (c.toNat - '0'.toNat) * 10 ^ m.length + digitsValue m := by
        rw [digitsValue, List.foldl_cons, ih, Nat.mul_zero, Nat.zero_add]
      rw [List.foldl_cons, ih, hc, List.length_cons, Nat.pow_succ', ← Nat.add_assoc, Nat.add_mul,
        Nat.mul_left_comm, Nat.mul_assoc]
  exact List.foldl_append.trans (h _)

@[simp]
theorem digitsValue_zeros (n : ℕ) : digitsValue (List.replicate n '0') = 0 := by
  induction n
  case zero => rfl
  case succ n ih => simpa [digitsValue, List.replicate_succ] using ih

theorem digitsValue_toDigits (n : ℕ) : digitsValue (Nat.toDigits 10 n) = n := by
  have hn := Nat.ofDigitChars_ten_toDigits (n := n)
  rwa [Nat.ofDigitChars_eq_foldl] at hn

-- A number that is not zero does not begin with the digit zero.
theorem toDigits_head {n : ℕ} (hn : 0 < n) : ∃ c l, Nat.toDigits 10 n = c :: l ∧ c ≠ '0' := by
  induction n using Nat.strongRecOn
  case ind n ih =>
    by_cases hb : n < 10
    case pos =>
      have hd : ∀ n < 10, 0 < n → n.digitChar ≠ '0' := by decide
      exact ⟨n.digitChar, [], Nat.toDigits_of_lt_base hb, hd n hb hn⟩
    case neg =>
      obtain ⟨c, l, he, hc⟩ := ih (n / 10) (by omega) (by omega)
      rw [Nat.toDigits_of_base_le (by decide) (by omega), he]
      exact ⟨c, _, rfl, hc⟩

-- Whether the text has a minus sign, and what comes after its sign.
def signed : List Char → Bool × List Char
  | '-' :: l => (true, l)
  | '+' :: l => (false, l)
  | l        => (false, l)

def exponent : List Char → Option ℤ
  | []     => some 0
  | c :: l =>
    let (negative, digits) := signed l
    if c ∈ ['e', 'E'] ∧ digits ≠ [] ∧ digits.all Char.isDigit then
      some (if negative then -digitsValue digits else digitsValue digits)
    else
      none

-- Digits after a point, if there is one.
def fraction : List Char → List Char × List Char
  | '.' :: l => l.span Char.isDigit
  | l        => ([], l)

-- The number that a text spells in the decimal notation with an exponent.
def decimal (text : List Char) : Option ℚ :=
  let (negative, text) := signed text
  let (whole, text) := text.span Char.isDigit
  let (part, text) := fraction text
  if whole = [] ∧ part = [] then
    none
  else
    (exponent text).map fun e =>
      (if negative then -1 else 1) * digitsValue (whole ++ part) * (10 : ℚ) ^ (e - (part.length : ℤ))

end Text
