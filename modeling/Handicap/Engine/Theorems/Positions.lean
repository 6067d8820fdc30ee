import Handicap.Engine.GenVars
import Mathlib.Data.List.TakeDrop

-- The grammar of positions: which texts are read, and as which ranges.
namespace Engine

open Guard

-- One to four digits, surrounded by whitespace.
def IsNumber (s : List Char) (n : ℕ) : Prop :=
  ∃ front digits back, s = front ++ digits ++ back ∧ (∀ c ∈ front, isAsciiWhitespace c) ∧
    (∀ c ∈ back, isAsciiWhitespace c) ∧ (∀ c ∈ digits, c.isDigit) ∧
    1 ≤ digits.length ∧ digits.length ≤ 4 ∧ Text.digitsValue digits = n

-- A number, or two of them around a minus sign.
def IsRange (s : List Char) (r : ℕ × ℕ) : Prop :=
  (IsNumber s r.1 ∧ r.2 = r.1) ∨ ∃ x y, s = x ++ '-' :: y ∧ IsNumber x r.1 ∧ IsNumber y r.2

-- A range of positions that exist.
def IsItem (length : ℕ) (s : List Char) (r : ℕ × ℕ) : Prop :=
  IsRange s r ∧ 1 ≤ r.1 ∧ r.1 ≤ r.2 ∧ r.2 ≤ length

-- No text but whitespace, or the ranges with commas between them.
inductive Spells (length : ℕ) (text : List Char) : List (ℕ × ℕ) → Prop
  | blank (h : ∀ c ∈ text, isAsciiWhitespace c) : Spells length text []
  | items {raws ranges} (hne : raws ≠ []) (ht : text = [','].intercalate raws)
      (hi : List.Forall₂ (IsItem length) raws ranges) : Spells length text ranges

variable {s x y : List Char} {a b n length : ℕ}

theorem not_space_of_digit {c : Char} (h : c.isDigit) : ¬isAsciiWhitespace c := by
  intro hs
  have hc : c ∈ [' ', '\t', '\n', '\r', '\x0c'] := by simpa [isAsciiWhitespace] using hs
  have hd : ∀ c ∈ [' ', '\t', '\n', '\r', '\x0c'], c.isDigit = false := by simp
  simp [hd c hc] at h

theorem IsNumber.notMem {c : Char} (h : IsNumber s n) (hs : ¬isAsciiWhitespace c)
    (hc : ¬c.isDigit) : c ∉ s := by
  obtain ⟨front, digits, back, rfl, hf, hb, hd, -⟩ := h
  simp only [List.mem_append, not_or]
  exact ⟨⟨fun h => hs (hf _ h), fun h => hc (hd _ h)⟩, fun h => hs (hb _ h)⟩

theorem IsNumber.dash_notMem (h : IsNumber s n) : '-' ∉ s :=
  h.notMem (by decide) (by decide)

theorem num_of_isNumber (h : IsNumber s n) : num s = some n := by
  obtain ⟨front, digits, back, rfl, hf, hb, hd, h1, h4, hn⟩ := h
  have ht : trimAsciiWs (front ++ digits ++ back) = digits :=
    Text.Stripped.eq ⟨⟨front, back, rfl, hf, hb⟩,
      fun c hc => not_space_of_digit (hd c (List.mem_of_mem_head? hc)),
      fun c hc => not_space_of_digit (hd c (List.mem_of_mem_getLast? hc))⟩
  have hne : digits ≠ [] := List.ne_nil_of_length_pos h1
  have hall : digits.all Char.isDigit := List.all_eq_true.mpr hd
  simp only [num, ht]
  rw [if_neg (by simp [hne, hall, h4]), hn]

theorem isNumber_of_num (h : num s = some n) : IsNumber s n := by
  obtain ⟨front, back, he, hf, hb⟩ := (Text.strip_stripped isAsciiWhitespace s).sides
  refine ⟨front, trimAsciiWs s, back, he, hf, hb, ?_⟩
  simp only [num] at h
  split at h
  case isTrue => simp at h
  case isFalse hn =>
    simp only [not_or, not_not] at hn
    exact ⟨List.all_eq_true.mp hn.2.2, List.length_pos_of_ne_nil hn.1, by omega, Option.some.inj h⟩

theorem num_eq_some : num s = some n ↔ IsNumber s n :=
  ⟨isNumber_of_num, num_of_isNumber⟩

-- Whitespace around a number is part of it.
theorem IsNumber.pad {front back : List Char} (h : IsNumber s n)
    (hf : ∀ c ∈ front, isAsciiWhitespace c) (hb : ∀ c ∈ back, isAsciiWhitespace c) :
    IsNumber (front ++ s ++ back) n := by
  obtain ⟨f, digits, b, rfl, hf', hb', h⟩ := h
  refine ⟨front ++ f, digits, b ++ back, by simp, ?_, ?_, h⟩
  case refine_1 => exact fun c hc => (List.mem_append.mp hc).elim (hf c) (hf' c)
  case refine_2 => exact fun c hc => (List.mem_append.mp hc).elim (hb' c) (hb c)

theorem splitOnce_of_dash (h : '-' ∉ x) : splitOnce (x ++ '-' :: y) = some (x, y) := by
  have hx : ∀ c ∈ x, decide (c ≠ '-') = true := fun c hc => by
    simpa using fun he : c = '-' => h (he ▸ hc)
  rw [splitOnce, List.span_eq_takeWhile_dropWhile, List.takeWhile_append_of_pos hx,
    List.dropWhile_append_of_pos hx]
  simp

theorem splitOnce_of_notMem (h : '-' ∉ s) : splitOnce s = none := by
  have hs : s.dropWhile (· ≠ '-') = [] :=
    List.dropWhile_eq_nil_iff.mpr fun c hc => by simpa using fun he : c = '-' => h (he ▸ hc)
  rw [splitOnce, List.span_eq_takeWhile_dropWhile, hs]

theorem num_trimAsciiWs : num (trimAsciiWs s) = num s := by
  have ht : trimAsciiWs (trimAsciiWs s) = trimAsciiWs s := Text.strip_strip ..
  simp only [num, ht]

-- Trimming leaves the numbers around a minus sign.
theorem trim_range (hx : IsNumber x a) (hy : IsNumber y b) :
    ∃ x' y', trimAsciiWs (x ++ '-' :: y) = x' ++ '-' :: y' ∧ IsNumber x' a ∧ IsNumber y' b := by
  obtain ⟨front, dx, back, rfl, hf, hb, hdx, h1, h4, ha⟩ := hx
  obtain ⟨front', dy, back', rfl, hf', hb', hdy, h1', h4', hb⟩ := hy
  have hnx : dx ≠ [] := List.ne_nil_of_length_pos h1
  have hny : dy ≠ [] := List.ne_nil_of_length_pos h1'
  refine ⟨dx ++ back, front' ++ dy, Text.Stripped.eq ⟨⟨front, back', by simp, hf, hb'⟩, ?_, ?_⟩,
    ⟨[], dx, back, by simp, by simp, by assumption, hdx, h1, h4, ha⟩,
    ⟨front', dy, [], by simp, hf', by simp, hdy, h1', h4', hb⟩⟩
  case refine_1 =>
    intro c hc
    rw [List.append_assoc, List.head?_append_of_ne_nil _ hnx] at hc
    exact not_space_of_digit (hdx c (List.mem_of_mem_head? hc))
  case refine_2 =>
    intro c hc
    rw [List.getLast?_append_of_ne_nil _ (List.cons_ne_nil _ _), ← List.cons_append,
      List.getLast?_append_of_ne_nil _ hny] at hc
    exact not_space_of_digit (hdy c (List.mem_of_mem_getLast? hc))

-- An item is read as the range that it spells.
theorem item_eq_some : item s = (some a, some b) ↔ IsRange s (a, b) := by
  obtain ⟨front, back, he, hf, hb⟩ := (Text.strip_stripped isAsciiWhitespace s).sides
  have hs : s = front ++ trimAsciiWs s ++ back := he
  constructor
  case mp =>
    intro h
    by_cases hd : '-' ∈ trimAsciiWs s
    case neg =>
      simp only [item, splitOnce_of_notMem hd, Prod.mk.injEq] at h
      have hab : b = a := Option.some.inj (h.right.symm.trans h.left)
      refine .inl ⟨?_, hab⟩
      rw [hs]
      exact (isNumber_of_num h.left).pad hf hb
    case pos =>
      obtain ⟨x, y, ht, hx⟩ := List.eq_append_cons_of_mem hd
      simp only [item, ht, splitOnce_of_dash hx, Prod.mk.injEq] at h
      refine .inr ⟨front ++ x, y ++ back, ?_, ?_, ?_⟩
      case refine_1 =>
        rw [hs, ht]
        simp
      case refine_2 => simpa using (isNumber_of_num h.left).pad hf (List.forall_mem_nil _)
      case refine_3 => simpa using (isNumber_of_num h.right).pad (List.forall_mem_nil _) hb
  case mpr =>
    intro h
    cases h
    case inl h =>
      have ht := num_eq_some.1 (num_trimAsciiWs.trans (num_of_isNumber h.left))
      have hab : b = a := h.right
      simp only [item, splitOnce_of_notMem ht.dash_notMem, num_of_isNumber ht, hab]
    case inr h =>
      obtain ⟨x, y, rfl, hx, hy⟩ := h
      obtain ⟨x, y, ht, hx, hy⟩ := trim_range hx hy
      simp only [item, ht, splitOnce_of_dash hx.dash_notMem, num_of_isNumber hx, num_of_isNumber hy]

theorem IsRange.comma_notMem {r : ℕ × ℕ} (h : IsRange s r) : ',' ∉ s := by
  cases h
  case inl h => exact h.left.notMem (by decide) (by decide)
  case inr h =>
    obtain ⟨x, y, rfl, hx, hy⟩ := h
    have hcx := hx.notMem (c := ',') (by decide) (by decide)
    have hcy := hy.notMem (c := ',') (by decide) (by decide)
    simp [hcx, hcy]

variable {i : ℕ} {mark mark' : ℕ → Bool} {raws : List (List Char)} {ranges : List (ℕ × ℕ)}

-- The positions of some ranges.
def covered (ranges : List (ℕ × ℕ)) (p : ℕ) : Bool :=
  ranges.any fun r => r.1 ≤ p && p ≤ r.2

theorem markItems_of_items (h : List.Forall₂ (IsItem length) raws ranges) :
    markItems length i mark raws = .ok fun p => mark p || covered ranges p := by
  induction h generalizing i mark
  case nil => simp [markItems, covered]
  case cons raw r raws ranges hr _ ih =>
    obtain ⟨hr, h1, hle, hlen⟩ := hr
    rw [markItems, item_eq_some.2 hr]
    simp only [refuse, if_neg (not_lt.mpr hle), if_neg (show ¬(r.1 < 1 ∨ length < r.2) by omega)]
    refine (ih (i := i + 1)).trans (congrArg Except.ok (funext fun p => ?_))
    simp [covered, Bool.or_assoc]

theorem items_of_markItems (h : markItems length i mark raws = .ok mark') :
    ∃ ranges, List.Forall₂ (IsItem length) raws ranges := by
  induction raws generalizing i mark
  case nil => exact ⟨[], .nil⟩
  case cons raw raws ih =>
    rw [markItems] at h
    split at h
    case h_2 => simp at h
    case h_1 a b hi =>
      obtain ⟨_, hle, h⟩ := bind_eq_ok.mp h
      obtain ⟨_, hin, h⟩ := bind_eq_ok.mp h
      have hle := refuse_eq_ok.mp hle
      have hin := refuse_eq_ok.mp hin
      obtain ⟨ranges, hr⟩ := ih h
      exact ⟨(a, b) :: ranges, .cons ⟨item_eq_some.1 hi, by omega, by omega, by omega⟩ hr⟩

theorem trimAsciiWs_eq_nil : trimAsciiWs s = [] ↔ ∀ c ∈ s, isAsciiWhitespace c := by
  constructor
  case mp =>
    intro h c hc
    have hs : Text.strip isAsciiWhitespace s = [] := h
    exact (Text.mem_strip_or isAsciiWhitespace s hc).resolve_left (by simp [hs])
  case mpr => exact fun h => Text.Stripped.eq ⟨⟨s, [], by simp, h, by simp⟩, by simp, by simp⟩

theorem IsNumber.ne_blank (h : IsNumber s n) : ∃ c ∈ s, ¬isAsciiWhitespace c := by
  obtain ⟨front, digits, back, rfl, -, -, hd, h1, -⟩ := h
  obtain ⟨c, hc⟩ := List.exists_mem_of_length_pos h1
  exact ⟨c, by simp [hc], not_space_of_digit (hd c hc)⟩

theorem IsRange.ne_blank {r : ℕ × ℕ} (h : IsRange s r) : ∃ c ∈ s, ¬isAsciiWhitespace c := by
  cases h
  case inl h => exact h.left.ne_blank
  case inr h =>
    obtain ⟨x, y, rfl, -⟩ := h
    exact ⟨'-', by simp, by decide⟩

theorem items_comma_notMem (h : List.Forall₂ (IsItem length) raws ranges) :
    ∀ raw ∈ raws, ',' ∉ raw := by
  induction h
  case nil => simp
  case cons hr _ ih => exact List.forall_mem_cons.mpr ⟨hr.left.comma_notMem, ih⟩

-- The first item is enough for a text that is not blank.
theorem items_ne_blank (h : List.Forall₂ (IsItem length) raws ranges) (hne : raws ≠ []) :
    ∃ c ∈ [','].intercalate raws, ¬isAsciiWhitespace c := by
  cases h
  case nil => exact absurd rfl hne
  case cons raw r raws ranges hr _ =>
    obtain ⟨c, hc, hs⟩ := hr.left.ne_blank
    refine ⟨c, ?_, hs⟩
    cases raws
    case nil => simpa using hc
    case cons => simp [hc]

variable {text : String} {set : List ℕ}

-- What a text spells is what is read, if the lengths are in their bounds.
theorem parsePositions_of_spells (hl : 1 ≤ length ∧ length ≤ pickArrayMaxLen)
    (hb : byteLength text.toList ≤ positionsMaxChars) (h : Spells length text.toList ranges) :
    parsePositions text length = .ok ((List.range' 1 length).filter (covered ranges)) := by
  simp only [parsePositions, refuse, if_neg (not_not.mpr hl), if_neg (not_lt.mpr hb)]
  cases h
  case blank h =>
    have hc : covered [] = fun _ => false := rfl
    simp only [trimAsciiWs_eq_nil.2 h, hc, List.filter_false]
    rfl
  case items raws hne ht hi =>
    have hnot : ¬trimAsciiWs text.toList = [] := by
      rw [trimAsciiWs_eq_nil, ht]
      intro hblank
      obtain ⟨c, hc, hs⟩ := items_ne_blank hi hne
      exact hs (hblank c hc)
    have hs : text.toList.splitOn ',' = raws := by
      rw [ht, List.splitOn_intercalate _ (items_comma_notMem hi) hne]
    have hm := @markItems_of_items length 1 (fun _ => false) raws ranges hi
    simp only [Bool.false_or] at hm
    simp only [if_neg hnot, hs, hm]
    rfl

theorem items_within (h : List.Forall₂ (IsItem length) raws ranges) :
    ∀ r ∈ ranges, 1 ≤ r.1 ∧ r.2 ≤ length := by
  induction h
  case nil => simp
  case cons hr _ ih => exact List.forall_mem_cons.mpr ⟨⟨hr.right.left, hr.right.right.right⟩, ih⟩

theorem Spells.within (h : Spells length s ranges) : ∀ r ∈ ranges, 1 ≤ r.1 ∧ r.2 ≤ length := by
  cases h
  case blank => simp
  case items hi => exact items_within hi

-- The positions of a text that is read are those of its ranges, in their order.
theorem mem_positions_iff (h : Spells length text.toList ranges)
    (hp : parsePositions text length = .ok set) :
    set.Pairwise (· < ·) ∧ ∀ p, p ∈ set ↔ ∃ r ∈ ranges, r.1 ≤ p ∧ p ≤ r.2 := by
  obtain ⟨_, hl, hb⟩ := bind_eq_ok.mp hp
  obtain ⟨_, hb, -⟩ := bind_eq_ok.mp hb
  rw [parsePositions_of_spells (not_not.mp (refuse_eq_ok.mp hl)) (not_lt.mp (refuse_eq_ok.mp hb)) h,
    Except.ok.injEq] at hp
  rw [← hp]
  refine ⟨List.Pairwise.filter _ (List.pairwise_lt_range' ..), fun p => ?_⟩
  simp only [List.mem_filter, List.mem_range'_1, covered, List.any_eq_true, Bool.and_eq_true,
    decide_eq_true_eq]
  constructor
  case mp => exact fun h => h.right
  case mpr =>
    intro ⟨r, hr, hle⟩
    have hw := h.within r hr
    exact ⟨by omega, r, hr, hle⟩

theorem spells_of_parsePositions (h : parsePositions text length = .ok set) :
    (1 ≤ length ∧ length ≤ pickArrayMaxLen) ∧ byteLength text.toList ≤ positionsMaxChars ∧
      ∃ ranges, Spells length text.toList ranges := by
  obtain ⟨_, hl, h⟩ := bind_eq_ok.mp h
  obtain ⟨_, hb, h⟩ := bind_eq_ok.mp h
  refine ⟨not_not.mp (refuse_eq_ok.mp hl), not_lt.mp (refuse_eq_ok.mp hb), ?_⟩
  split at h
  case isTrue ht => exact ⟨[], .blank (trimAsciiWs_eq_nil.1 ht)⟩
  case isFalse =>
    obtain ⟨_, hm, -⟩ := bind_eq_ok.mp h
    obtain ⟨ranges, hr⟩ := items_of_markItems hm
    exact ⟨ranges, .items (List.splitOn_ne_nil _ _) (List.intercalate_splitOn ',').symm hr⟩

end Engine
