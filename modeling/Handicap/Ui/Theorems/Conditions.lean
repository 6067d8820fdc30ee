import Handicap.Library.Decimal
import Handicap.Monitor.Theorems.Config
import Handicap.Ui.Conditions

open Monitor (Condition ConditionOp ConditionSource ConfigLib f64Overflow)
open Store (isWhiteSpace)

-- The form and the server check the same conditions, up to two characters that only one of them
-- takes for white space.
namespace Ui

-- White space of the server only, and of the form only.
def nextLine : Char :=
  '\u0085'

def byteOrderMark : Char :=
  '\uFEFF'

def isAnySpace (c : Char) : Bool :=
  isJsSpace c || isWhiteSpace c

def isCommonSpace (c : Char) : Bool :=
  isJsSpace c && isWhiteSpace c

section

variable {c : Char}

theorem char_ext {d : Char} : c = d ↔ c.toNat = d.toNat :=
  Char.toNat_inj.symm

theorem isJsSpace_common : isJsSpace c ↔ isCommonSpace c ∨ c = byteOrderMark := by
  rw [char_ext]
  simp [isCommonSpace, isJsSpace, isWhiteSpace, byteOrderMark]
  omega

theorem isWhiteSpace_common : isWhiteSpace c ↔ isCommonSpace c ∨ c = nextLine := by
  rw [char_ext]
  simp [isCommonSpace, isJsSpace, isWhiteSpace, nextLine]
  omega

theorem isJsSpace_iff : isJsSpace c ↔ isAnySpace c ∧ c ≠ nextLine := by
  rw [isAnySpace, Bool.or_eq_true]
  constructor
  case mp => exact fun h => ⟨.inl h, fun he => absurd (he ▸ h) (by decide)⟩
  case mpr =>
    rintro ⟨h | h, hn⟩
    case inl => exact h
    case inr => exact isJsSpace_common.2 (.inl ((isWhiteSpace_common.1 h).resolve_right hn))

theorem isWhiteSpace_iff : isWhiteSpace c ↔ isAnySpace c ∧ c ≠ byteOrderMark := by
  rw [isAnySpace, Bool.or_eq_true]
  constructor
  case mp => exact fun h => ⟨.inr h, fun he => absurd (he ▸ h) (by decide)⟩
  case mpr =>
    rintro ⟨h | h, hn⟩
    case inl => exact isWhiteSpace_common.2 (.inl ((isJsSpace_common.1 h).resolve_right hn))
    case inr => exact h

end

open Regex in
theorem optSign_splits {b : Bool} {l m t : List Char} :
    (m, t) ∈ (opt (one isSign)).splits b l ↔ m ++ t = l ∧ Text.IsSign m := by
  simp only [mem_opt, mem_one, Text.IsSign, isSign, Bool.or_eq_true, decide_eq_true_eq]
  constructor
  case mp =>
    rintro (⟨c, rfl | rfl, rfl, rfl⟩ | ⟨rfl, rfl⟩)
    case inl.inl => exact ⟨rfl, .inr (.inl rfl)⟩
    case inl.inr => exact ⟨rfl, .inr (.inr rfl)⟩
    case inr     => exact ⟨rfl, .inl rfl⟩
  case mpr =>
    rintro ⟨rfl, rfl | rfl | rfl⟩
    case inl     => exact .inr ⟨rfl, rfl⟩
    case inr.inl => exact .inl ⟨'+', .inl rfl, rfl, rfl⟩
    case inr.inr => exact .inl ⟨'-', .inr rfl, rfl, rfl⟩

theorem numberRe_before {b : Bool} {l m t : List Char} :
    (m, t) ∈ numberRe.before.splits b l ↔ b ∧ m ++ t = l ∧ Text.IsSign m := by
  simp only [numberRe, Regex.mem_seq, Regex.mem_start, optSign_splits]
  constructor
  case mp =>
    rintro ⟨_, _, m₂, ⟨hb, rfl, rfl⟩, ⟨he, hs⟩, rfl⟩
    exact ⟨hb, he, hs⟩
  case mpr =>
    rintro ⟨hb, he, hs⟩
    exact ⟨[], l, m, ⟨hb, rfl, rfl⟩, ⟨he, hs⟩, rfl⟩

theorem numberRe_group {b : Bool} {l m t : List Char} :
    (m, t) ∈ numberRe.group.splits b l ↔ m ++ t = l ∧ ∃ whole point part,
      m = whole ++ (point ++ part) ∧ Text.Digits whole ∧
        (point = [] ∧ part = [] ∨ point = ['.']) ∧ Text.Digits part ∧ whole ++ part ≠ [] := by
  simp only [numberRe, Regex.mem_alt, Regex.mem_seq, Regex.mem_plus, Regex.mem_opt, Regex.mem_one,
    Regex.mem_many, decide_eq_true_eq]
  constructor
  case mp =>
    rintro (⟨w, _, _, ⟨rfl, hne, hw⟩, ⟨_, t₁, p, hpoint, ⟨rfl, hp⟩, rfl⟩, rfl⟩ |
      ⟨_, _, p, ⟨_, rfl, rfl, rfl⟩, ⟨rfl, hne, hp⟩, rfl⟩)
    case inl =>
      obtain ⟨_, rfl, rfl, rfl⟩ | ⟨rfl, rfl⟩ := hpoint
      case inl =>
        refine ⟨by simp, w, ['.'], p, rfl, hw, .inr rfl, hp, fun h => hne ?_⟩
        exact (List.append_eq_nil_iff.mp h).1
      case inr =>
        refine ⟨by simp, w ++ p, [], [], by simp, ?_, .inl ⟨rfl, rfl⟩, by simp [Text.Digits], ?_⟩
        case refine_1 => exact fun c hc => (List.mem_append.mp hc).elim (hw c) (hp c)
        case refine_2 => simp [hne]
    case inr =>
      exact ⟨by simp, [], ['.'], p, rfl, by simp [Text.Digits], .inr rfl, hp, by simpa⟩
  case mpr =>
    rintro ⟨rfl, w, point, p, rfl, hw, hpoint, hp, hne⟩
    by_cases hw' : w = []
    case pos =>
      subst hw'
      obtain ⟨rfl, rfl⟩ | rfl := hpoint
      case inl => simp at hne
      case inr =>
        exact .inr ⟨['.'], p ++ t, p, ⟨'.', rfl, rfl, rfl⟩, ⟨rfl, by simpa using hne, hp⟩, rfl⟩
    case neg =>
      refine .inl ⟨w, point ++ (p ++ t), point ++ p, ⟨by simp, hw', hw⟩,
        ⟨point, p ++ t, p, ?_, ⟨rfl, hp⟩, rfl⟩, rfl⟩
      obtain ⟨rfl, rfl⟩ | rfl := hpoint
      case inl => exact .inr ⟨rfl, rfl⟩
      case inr => exact .inl ⟨'.', rfl, rfl, rfl⟩

theorem numberRe_after {b : Bool} {l m t : List Char} :
    (m, t) ∈ numberRe.after.splits b l ↔ m = l ∧ t = [] ∧ Text.IsExponent l := by
  simp only [numberRe, Regex.mem_seq, Regex.mem_opt (r := .seq _ _), Regex.mem_one,
    optSign_splits, Regex.mem_plus, Regex.mem_stop, Bool.or_eq_true, decide_eq_true_eq]
  constructor
  case mp =>
    rintro ⟨_, _, _, ⟨_, _, _, ⟨e, he, rfl, rfl⟩, ⟨sign, _, d, ⟨rfl, hs⟩, ⟨rfl, hne, hd⟩, rfl⟩, rfl⟩ |
      ⟨rfl, rfl⟩, ⟨rfl, rfl, rfl⟩, rfl⟩
    case inl =>
      refine ⟨by simp, rfl, .inr ⟨e, by simpa using he, sign, d, by simp, hs, hne, hd⟩⟩
    case inr => exact ⟨rfl, rfl, .inl rfl⟩
  case mpr =>
    rintro ⟨rfl, rfl, rfl | ⟨e, he, sign, d, rfl, hs, hne, hd⟩⟩
    case inl => exact ⟨[], [], [], .inr ⟨rfl, rfl⟩, ⟨rfl, rfl, rfl⟩, rfl⟩
    case inr =>
      refine ⟨e :: (sign ++ d), [], [], .inl
        ⟨[e], sign ++ d, sign ++ d, ⟨e, by simpa using he, rfl, rfl⟩,
          ⟨sign, d, d, ⟨rfl, hs⟩, ⟨by simp, hne, hd⟩, rfl⟩, rfl⟩, ⟨rfl, rfl, rfl⟩, by simp⟩

-- The expression of the form matches what the server reads as a number.
theorem numberRe_test {l : List Char} : numberRe.test l ↔ Text.Spells l := by
  have h (l : List Char) : numberRe.candidates false l = [] := by
    refine List.eq_nil_iff_forall_not_mem.mpr fun x hx => ?_
    obtain ⟨_, _, _, _, h, _⟩ := Pattern.mem_candidates.mp hx
    exact absurd (numberRe_before.1 h).1 (by simp)
  simp only [Pattern.test_anchored h, Pattern.mem_candidates, numberRe_before, numberRe_group,
    numberRe_after, Text.Spells]
  constructor
  case mp =>
    rintro ⟨_, _, sign, _, exp, _, ⟨_, rfl, hs⟩, ⟨rfl, w, point, p, rfl, hw, hpoint, hp, hne⟩,
      rfl, rfl, he⟩
    exact ⟨sign, w, point, p, _, by simp, hs, hw, hpoint, hp, hne, he⟩
  case mpr =>
    rintro ⟨sign, w, point, p, exp, rfl, hs, hw, hpoint, hp, hne, he⟩
    exact ⟨w ++ (point ++ p), [], sign, _, exp, exp, ⟨trivial, rfl, hs⟩,
      ⟨by simp, w, point, p, rfl, hw, hpoint, hp, hne⟩, rfl, rfl, he⟩

-- A text spells a finite number.
def IsNumber (l : List Char) : Prop :=
  ∃ q ∈ Text.decimal l, |q| < f64Overflow

theorem isFiniteNumberText_iff {s : String} :
    isFiniteNumberText s ↔ IsNumber (Text.strip isJsSpace s.toList) := by
  simp only [isFiniteNumberText, jsTrim, Text.trim, String.toList_ofList, Bool.and_eq_true,
    numberRe_test, ← Text.decimal_isSome, Option.any_eq_true, decide_eq_true_eq]
  refine ⟨And.right, ?_⟩
  rintro ⟨q, hq, h⟩
  exact ⟨Option.isSome_of_mem hq, q, hq, h⟩

theorem parseFinite_iff {s : String} :
    (Monitor.parseFinite s).isSome ↔ IsNumber (Text.strip isWhiteSpace s.toList) := by
  simp only [Monitor.parseFinite, Monitor.trim, Text.trim, String.toList_ofList, IsNumber,
    Option.isSome_iff_exists, Option.filter_eq_some_iff, decide_eq_true_eq]
  rfl

theorem digit_notSpace {c : Char} (h : c.isDigit) : ¬isAnySpace c := by
  simp only [Char.isDigit, Bool.and_eq_true, decide_eq_true_eq, ge_iff_le, UInt32.le_iff_toNat_le] at h
  have h₁ : 48 ≤ c.toNat := h.1
  have h₂ : c.toNat ≤ 57 := h.2
  simp [isAnySpace, isJsSpace, isWhiteSpace]
  omega

theorem IsNumber.noSpace {l : List Char} (h : IsNumber l) : l ≠ [] ∧ ∀ c ∈ l, ¬isAnySpace c := by
  have ⟨q, hq, _⟩ := h
  obtain ⟨sign, w, point, p, exp, rfl, hs, hw, hpoint, hp, hne, he⟩ :=
    Text.decimal_isSome.mp (Option.isSome_of_mem hq)
  have hsign {sign : List Char} (hs : Text.IsSign sign) : ∀ c ∈ sign, ¬isAnySpace c := by
    obtain rfl | rfl | rfl := hs
    case inl     => simp
    case inr.inl => simp [isAnySpace, isJsSpace, isWhiteSpace]
    case inr.inr => simp [isAnySpace, isJsSpace, isWhiteSpace]
  constructor
  case left =>
    simp only [ne_eq, List.append_eq_nil_iff, not_and]
    intro _ hw _ hp
    exact absurd (by rw [hw, hp]; rfl) hne
  case right =>
    simp only [List.mem_append]
    rintro c (hc | hc | hc | hc | hc)
    case inl             => exact hsign hs c hc
    case inr.inl         => exact digit_notSpace (hw c hc)
    case inr.inr.inl     =>
      obtain ⟨rfl, _⟩ | rfl := hpoint
      case inl => cases hc
      case inr =>
        obtain rfl := List.mem_singleton.mp hc
        decide
    case inr.inr.inr.inl => exact digit_notSpace (hp c hc)
    case inr.inr.inr.inr =>
      obtain rfl | ⟨e, hm, sign, d, rfl, hs, _, hd⟩ := he
      case inl => cases hc
      case inr =>
        simp only [List.mem_cons, List.mem_append, List.not_mem_nil, or_false] at hc hm
        obtain rfl | hc | hc := hc
        case inl     => obtain rfl | rfl := hm <;> decide
        case inr.inl => exact hsign hs c hc
        case inr.inr => exact digit_notSpace (hd c hc)

-- A number with white space around it is one for the form unless the server's own is there, and one
-- for the server unless the form's own is.
def Padded (s : String) : Prop :=
  IsNumber (Text.strip isAnySpace s.toList)

theorem form_number {s : String} : isFiniteNumberText s ↔ Padded s ∧ nextLine ∉ s.toList := by
  rw [isFiniteNumberText_iff]
  exact Text.strip_meets (fun _ => isJsSpace_iff) (fun _ => IsNumber.noSpace) (by decide)

theorem server_number {s : String} :
    (Monitor.parseFinite s).isSome ↔ Padded s ∧ byteOrderMark ∉ s.toList := by
  rw [parseFinite_iff]
  exact Text.strip_meets (fun _ => isWhiteSpace_iff) (fun _ => IsNumber.noSpace) (by decide)

-- The pieces of a text between its commas.
def pieces (s : String) : List (List Char) :=
  s.toList.splitOn ','

theorem form_candidates {s : String} : oneOfCandidates s =
    ((pieces s).map fun l => String.ofList (Text.strip isJsSpace l)).filter (· ≠ "") := by
  simp [oneOfCandidates, jsTrim, Text.trim, pieces]

theorem server_candidates {s : String} : Monitor.oneOfCandidates s =
    ((pieces s).map fun l => String.ofList (Text.strip isWhiteSpace l)).filter (· ≠ "") := by
  simp [Monitor.oneOfCandidates, Monitor.trim, Text.trim, pieces]

theorem flatten_splitOn (l : List Char) : (l.splitOn ',').flatten = l.filter (· ≠ ',') := by
  rw [List.splitOn]
  induction l
  case nil => rfl
  case cons d l ih =>
    rw [List.splitOnP_cons_eq_if_modifyHead]
    by_cases hd : d = ','
    case pos => simpa [hd] using ih
    case neg =>
      obtain ⟨piece, rest, hp⟩ := List.exists_cons_of_ne_nil (List.splitOnP_ne_nil (· == ',') l)
      rw [hp] at ih ⊢
      simpa [hd] using ih

theorem mem_splitOn {l : List Char} {c : Char} :
    (∃ piece ∈ l.splitOn ',', c ∈ piece) ↔ c ∈ l ∧ c ≠ ',' := by
  rw [← List.mem_flatten, flatten_splitOn, List.mem_filter, decide_eq_true_eq]

-- There is no candidate in a text of commas and white space.
theorem no_candidates {space : Char → Bool} {s : String} :
    ((pieces s).map fun l => String.ofList (Text.strip space l)).filter (· ≠ "") = [] ↔
      ∀ c ∈ s.toList, c = ',' ∨ space c := by
  simp only [List.filter_eq_nil_iff, List.mem_map, forall_exists_index, and_imp,
    forall_apply_eq_imp_iff₂, decide_not, Bool.not_eq_true', decide_eq_false_iff_not, not_not,
    String.ofList_eq_empty_iff, Text.strip_eq_nil]
  constructor
  case mp =>
    intro h c hc
    by_cases hne : c = ','
    case pos => exact .inl hne
    case neg =>
      have ⟨piece, hp, hm⟩ := mem_splitOn.2 ⟨hc, hne⟩
      exact .inr (h piece hp c hm)
  case mpr =>
    intro h piece hp c hm
    have ⟨hc, hne⟩ := mem_splitOn.1 ⟨piece, hp, hm⟩
    exact (h c hc).resolve_left hne

-- The text is made of commas and of white space of either kind.
def Blank (s : String) : Prop :=
  ∀ c ∈ s.toList, c = ',' ∨ isAnySpace c

theorem blank_without {space : Char → Bool} {k : Char} (hs : ∀ c, space c ↔ isAnySpace c ∧ c ≠ k)
    (hk : k ≠ ',') {s : String} :
    (∀ c ∈ s.toList, c = ',' ∨ space c) ↔ Blank s ∧ k ∉ s.toList := by
  constructor
  case mp =>
    intro h
    refine ⟨fun c hc => (h c hc).imp_right fun hc => ((hs c).mp hc).1, fun hm => ?_⟩
    exact (h k hm).elim hk fun hc => ((hs k).mp hc).2 rfl
  case mpr =>
    intro ⟨h, hm⟩ c hc
    refine (h c hc).imp_right fun hc' => (hs c).mpr ⟨hc', ?_⟩
    rintro rfl
    exact hm hc

theorem form_none {s : String} : oneOfCandidates s = [] ↔ Blank s ∧ nextLine ∉ s.toList := by
  rw [form_candidates, no_candidates]
  exact blank_without (fun _ => isJsSpace_iff) (by decide)

theorem server_none {s : String} :
    Monitor.oneOfCandidates s = [] ↔ Blank s ∧ byteOrderMark ∉ s.toList := by
  rw [server_candidates, no_candidates]
  exact blank_without (fun _ => isWhiteSpace_iff) (by decide)

-- Neither of the two characters is at an edge of the text, once the common white space is off.
def Settled (l : List Char) : Prop :=
  nextLine ∉ Text.edges (Text.strip isCommonSpace l) ∧
    byteOrderMark ∉ Text.edges (Text.strip isCommonSpace l)

theorem strip_settled {l : List Char} :
    Text.strip isJsSpace l = Text.strip isWhiteSpace l ↔ Settled l :=
  Text.strip_eq_strip (fun _ => isJsSpace_common) (fun _ => isWhiteSpace_common) (by decide)
    (by decide)

theorem mem_candidates (space : Char → Bool) {s : String} {c : Char} {l : List Char}
    (hl : l ∈ pieces s) (hc : c ∈ Text.edges (Text.strip isCommonSpace l))
    (hs : ∀ c, isCommonSpace c → space c) (hk : ¬space c) :
    ∃ x ∈ ((pieces s).map fun l => String.ofList (Text.strip space l)).filter (· ≠ ""),
      c ∈ Text.edges x.toList := by
  have he := Text.edges_of_edges hc hk
  rw [Text.strip_of_strip hs] at he
  refine ⟨String.ofList (Text.strip space l), List.mem_filter.mpr
    ⟨List.mem_map.mpr ⟨l, hl, rfl⟩, ?_⟩, by rwa [String.toList_ofList]⟩
  have hne := List.ne_nil_of_mem (Text.mem_of_mem_edges he)
  simpa [String.ofList_eq_empty_iff] using hne

theorem edges_candidates {space : Char → Bool} {s x : String} {c : Char}
    (hx : x ∈ ((pieces s).map fun l => String.ofList (Text.strip space l)).filter (· ≠ ""))
    (hc : c ∈ Text.edges x.toList) : ¬space c := by
  obtain ⟨l, _, rfl⟩ := List.mem_map.mp (List.mem_filter.mp hx).1
  rw [String.toList_ofList] at hc
  exact Text.edges_strip hc

-- The candidates of the form and of the server are the same where no piece has one of the two
-- characters at an edge.
theorem candidates_iff {s : String} :
    oneOfCandidates s = Monitor.oneOfCandidates s ↔ ∀ l ∈ pieces s, Settled l := by
  rw [form_candidates, server_candidates]
  constructor
  case mp =>
    intro h l hl
    refine ⟨fun hm => ?_, fun hm => ?_⟩
    case refine_1 =>
      have ⟨x, hx, hc⟩ := mem_candidates isJsSpace hl hm
        (fun c hc => isJsSpace_common.2 (.inl hc)) (by decide)
      exact edges_candidates (h ▸ hx) hc (by decide)
    case refine_2 =>
      have ⟨x, hx, hc⟩ := mem_candidates isWhiteSpace hl hm
        (fun c hc => isWhiteSpace_common.2 (.inl hc)) (by decide)
      exact edges_candidates (h ▸ hx) hc (by decide)
  case mpr =>
    intro h
    congr 1
    exact List.map_congr_left fun l hl => by rw [strip_settled.2 (h l hl)]

section

variable {op : ConditionOp} {value : String} {c n : Condition} {lib : ConfigLib}

-- What both sides ask of a value alike.
def Fits (op : ConditionOp) (value : String) : Prop :=
  value.length ≤ 200 ∧ ¬(op = .contains ∧ value = "")

-- What a side asks of a value that keeps a character which the other one takes for white space.
structure ValueOk (kept : Char) (op : ConditionOp) (value : String) : Prop where
  number : op.isOrder → Padded value ∧ kept ∉ value.toList
  oneOf  : op = .oneOf → ¬(Blank value ∧ kept ∉ value.toList)

theorem valueOk_iff {kept : Char} : ValueOk kept op value ↔
    ¬(op.isOrder ∧ ¬(Padded value ∧ kept ∉ value.toList)) ∧
      ¬(op = .oneOf ∧ Blank value ∧ kept ∉ value.toList) := by
  constructor
  case mp  => exact fun h => ⟨fun h' => h'.2 (h.number h'.1), fun h' => h.oneOf h'.1 h'.2⟩
  case mpr =>
    exact fun ⟨h, h'⟩ => ⟨fun ho => not_not.mp fun hn => h ⟨ho, hn⟩, fun ho hb => h' ⟨ho, hb⟩⟩

theorem valueError_none :
    valueError op value = none ↔ Fits op value ∧ ValueOk nextLine op value := by
  have hn : isFiniteNumberText value = false ↔ ¬(Padded value ∧ nextLine ∉ value.toList) := by
    rw [← form_number, Bool.not_eq_true]
  rw [valueOk_iff, ← hn, ← form_none, Fits, ← Nat.not_lt, valueError]
  split_ifs with h₁ h₂ h₃ h₄
  case pos => exact iff_of_false (by simp) fun h => h.1.1 h₁
  case pos => exact iff_of_false (by simp) fun h => h.1.2 h₂
  case pos => exact iff_of_false (by simp) fun h => h.2.1 h₃
  case pos => exact iff_of_false (by simp) fun h => h.2.2 h₄
  case neg => exact iff_of_true rfl ⟨⟨h₁, h₂⟩, h₃, h₄⟩

theorem checkValue_ok :
    Monitor.checkValue op value = .ok () ↔ Fits op value ∧ ValueOk byteOrderMark op value := by
  have hn : Monitor.parseFinite value = none ↔ ¬(Padded value ∧ byteOrderMark ∉ value.toList) := by
    rw [← server_number, Option.not_isSome_iff_eq_none]
  rw [valueOk_iff, ← hn, ← server_none, Fits, ← Nat.not_lt]
  simp only [Monitor.checkValue, Guard.seq_eq_ok, Guard.refuse_eq_ok, and_assoc]

-- The verdicts on a value differ: it would be fine or not but for exactly one of the two
-- characters.
def Hinges (op : ConditionOp) (value : String) : Prop :=
  (op.isOrder ∧ Padded value ∨ op = .oneOf ∧ Blank value) ∧
    ¬(nextLine ∈ value.toList ↔ byteOrderMark ∈ value.toList)

theorem valueOk_agree :
    (ValueOk nextLine op value ↔ ValueOk byteOrderMark op value) ↔ ¬Hinges op value := by
  rw [valueOk_iff, valueOk_iff, Hinges]
  by_cases ho : op = .oneOf
  case pos =>
    have hi : ¬op.isOrder := by simp [ho, Monitor.ConditionOp.isOrder]
    grind
  case neg => grind

-- The server leaves the path as the form has trimmed it.
def KeepsPath (c : Condition) : Prop :=
  c.source = .header → nextLine ∉ Text.edges (jsTrim c.path).toList

theorem trim_jsTrim {path : String} :
    Monitor.trim (jsTrim path) = jsTrim path ↔ nextLine ∉ Text.edges (jsTrim path).toList := by
  have hl : (jsTrim path).toList = Text.strip isJsSpace path.toList := by
    rw [jsTrim, Text.trim, String.toList_ofList]
  rw [Monitor.trim, Text.trim, ← String.toList_inj, String.toList_ofList, hl]
  constructor
  case mp =>
    intro h hm
    rw [← h] at hm
    exact Text.edges_strip hm (by decide)
  case mpr =>
    intro h
    have hw (c : Char) (hc : c ∈ Text.edges (Text.strip isJsSpace path.toList)) : ¬isWhiteSpace c := by
      intro hw
      refine (isWhiteSpace_common.1 hw).elim (fun hcs => ?_) fun hn => h (hn ▸ hc)
      exact Text.edges_strip hc (isJsSpace_common.2 (.inl hcs))
    exact Text.Stripped.eq ⟨⟨[], [], by simp, by simp, by simp⟩,
      fun c hc => hw c (Text.mem_edges.mpr (.inl hc)), fun c hc => hw c (Text.mem_edges.mpr (.inr hc))⟩

theorem jsTrim_jsTrim {path : String} : jsTrim (jsTrim path) = jsTrim path :=
  Text.trim_trim

-- The path is as long as the form allows, and as the server allows.
def FormPath (c : Condition) : Prop :=
  match c.source with
  | .body   => 1 ≤ c.path.length ∧ c.path.length ≤ 500
  | .header => 1 ≤ (jsTrim c.path).length ∧ (jsTrim c.path).length ≤ 200
  | _       => True

def ServerPath (c : Condition) : Prop :=
  match c.source with
  | .body   => 1 ≤ c.path.length ∧ c.path.length ≤ 500
  | .header =>
    1 ≤ (Monitor.trim (jsTrim c.path)).length ∧ (Monitor.trim (jsTrim c.path)).length ≤ 200
  | _       => True

-- What is promised of a condition: a step id, an operator that its source allows, and a simple path
-- for the body.
structure WellFormed (lib : ConfigLib) (c : Condition) : Prop where
  ulid    : lib.isUlid c.stepId
  allowed : c.source.allows c.op
  valid   : c.source = .body → lib.jsonpathIsValid c.path
  simple  : c.source = .body → Monitor.jsonpathIsSimple c.path

theorem simple_head {path : String} (h : Monitor.jsonpathIsSimple path) :
    path.toList.head? = some '$' := by
  unfold Monitor.jsonpathIsSimple at h
  split at h
  case h_1 hl => rw [hl]; rfl
  case h_2    => cases h

theorem pathError_none (hc : WellFormed lib c) :
    pathError (normalizeCondition c) = none ↔ FormPath c := by
  unfold pathError FormPath normalizeCondition
  cases hs : c.source
  case body =>
    have hd := simple_head (hc.simple hs)
    simp only [hd, ite_eq_right_iff, reduceCtorEq, imp_false, ne_eq, not_true, or_false]
    omega
  case header =>
    simp only [jsTrim_jsTrim, ite_eq_right_iff, reduceCtorEq, imp_false]
    omega
  case status   => simp
  case bodyText => simp

theorem conditionError_none (hc : WellFormed lib c) :
    conditionError (normalizeCondition c) = none ↔
      FormPath c ∧ Fits c.op (normalizeCondition c).value ∧
        ValueOk nextLine c.op (normalizeCondition c).value := by
  rw [conditionError, Option.or_eq_none_iff, valueError_none, pathError_none hc]
  rfl

-- The path that the server stores.
def storedPath (c : Condition) : String :=
  match c.source with
  | .body   => c.path
  | .header => Monitor.trim (jsTrim c.path)
  | _       => ""

theorem storedPath_iff : storedPath c = (normalizeCondition c).path ↔ KeepsPath c := by
  unfold storedPath normalizeCondition KeepsPath
  cases hs : c.source
  case header => simpa using trim_jsTrim
  all_goals simp

theorem inRange_iff {v lo hi : ℕ} : Monitor.inRange v lo hi = true ↔ lo ≤ v ∧ v ≤ hi := by
  simp [Monitor.inRange]

theorem checkPath_ok (hc : WellFormed lib c) {path : String} :
    Monitor.checkPath lib c.source (normalizeCondition c).path = .ok path ↔
      ServerPath c ∧ storedPath c = path := by
  unfold Monitor.checkPath ServerPath storedPath normalizeCondition
  cases hs : c.source
  case body =>
    simp only [Guard.seq_eq_ok, Guard.refuse_eq_ok, pure, Except.pure, hc.valid hs, hc.simple hs,
      Bool.not_eq_true', Bool.not_eq_false, inRange_iff, Except.ok.injEq, true_and,
      not_false_eq_true, Bool.not_true, Bool.false_eq_true]
  case header =>
    simp only [Guard.seq_eq_ok, Guard.refuse_eq_ok, pure, Except.pure, Bool.not_eq_true',
      Bool.not_eq_false, inRange_iff, Except.ok.injEq]
  case status   => simp [pure, Except.pure]
  case bodyText => simp [pure, Except.pure]

theorem normalize_normalizeCondition (path : String) :
    (normalizeCondition c).normalize path = { normalizeCondition c with path := path } := by
  cases hv : c.op.needsValue <;> cases hf : c.op.hasFlags <;>
    simp [normalizeCondition, Monitor.Condition.normalize, hv, hf]

-- What the server makes of a condition from the form.
theorem validateCondition_ok (hc : WellFormed lib c) :
    Monitor.validateCondition lib (normalizeCondition c) = .ok n ↔
      (ServerPath c ∧ Fits c.op (normalizeCondition c).value ∧
        ValueOk byteOrderMark c.op (normalizeCondition c).value) ∧
      { normalizeCondition c with path := storedPath c } = n := by
  rw [Monitor.validateCondition_eq_ok]
  constructor
  case mp =>
    rintro ⟨_, _, path, hp, hv, hn⟩
    have ⟨hserver, hstored⟩ := (checkPath_ok hc).mp hp
    rw [normalize_normalizeCondition] at hv hn
    exact ⟨⟨hserver, checkValue_ok.1 hv⟩, hstored ▸ hn⟩
  case mpr =>
    rintro ⟨⟨hp, hv⟩, rfl⟩
    refine ⟨hc.ulid, hc.allowed, storedPath c, (checkPath_ok hc).mpr ⟨hp, rfl⟩, ?_, ?_⟩
    case refine_1 =>
      rw [normalize_normalizeCondition]
      exact checkValue_ok.2 hv
    case refine_2 => rw [normalize_normalizeCondition]

theorem validateConditions_singleton {l : List Condition} :
    Monitor.validateConditions lib [c] = .ok l ↔
      ∃ n, Monitor.validateCondition lib c = .ok n ∧ l = [n] := by
  rw [Monitor.validateConditions_eq_ok, Guard.each_cons_eq_ok]
  constructor
  case mp =>
    rintro ⟨_, n, hn, _, hl, rfl⟩
    cases hl
    exact ⟨n, hn, rfl⟩
  case mpr =>
    rintro ⟨n, hn, rfl⟩
    exact ⟨by simp [Monitor.maxConditions], n, hn, [], rfl, rfl⟩

-- The form takes a condition just where the server does, and the server stores it as it is.
structure Agrees (lib : ConfigLib) (c : Condition) : Prop where
  accepts : conditionError (normalizeCondition c) = none ↔
    ∃ l, Monitor.validateConditions lib [normalizeCondition c] = .ok l
  stores  : ∀ l, Monitor.validateConditions lib [normalizeCondition c] = .ok l →
    l = [normalizeCondition c]

-- A condition that would be fine, but for one of the two characters in its value, or at an edge of
-- the name of its header.
def Diverges (c : Condition) : Prop :=
  let value := (normalizeCondition c).value
  Fits c.op value ∧
    (KeepsPath c ∧ FormPath c ∧ Hinges c.op value ∨
      ¬KeepsPath c ∧ (FormPath c ∧ ValueOk nextLine c.op value ∨
        ServerPath c ∧ ValueOk byteOrderMark c.op value))

theorem serverPath_iff (hk : KeepsPath c) : ServerPath c ↔ FormPath c := by
  have hp := storedPath_iff.2 hk
  unfold ServerPath FormPath
  unfold storedPath normalizeCondition at hp
  cases hs : c.source
  case header =>
    simp only [hs] at hp
    simp only [hp]
  all_goals rfl

-- Two sides agree and the second one refuses where both of them refuse.
theorem agree_refused {p q : Prop} : (p ↔ q) ∧ ¬q ↔ ¬(p ∨ q) := by
  tauto

theorem agrees_iff (hc : WellFormed lib c) : Agrees lib c ↔ ¬Diverges c := by
  have hf := conditionError_none hc
  have hs : (∃ l, Monitor.validateConditions lib [normalizeCondition c] = .ok l) ↔
      ServerPath c ∧ Fits c.op (normalizeCondition c).value ∧
        ValueOk byteOrderMark c.op (normalizeCondition c).value := by
    simp only [validateConditions_singleton, validateCondition_ok hc]
    exact ⟨fun ⟨_, _, h, _⟩ => h.1, fun h => ⟨_, _, ⟨h, rfl⟩, rfl⟩⟩
  have hst : (∀ l, Monitor.validateConditions lib [normalizeCondition c] = .ok l →
      l = [normalizeCondition c]) ↔
      (ServerPath c ∧ Fits c.op (normalizeCondition c).value ∧
        ValueOk byteOrderMark c.op (normalizeCondition c).value → KeepsPath c) := by
    simp only [validateConditions_singleton, validateCondition_ok hc, ← storedPath_iff]
    constructor
    case mp =>
      intro h hok
      exact congrArg Condition.path (List.singleton_inj.mp (h _ ⟨_, ⟨hok, rfl⟩, rfl⟩))
    case mpr =>
      rintro h _ ⟨_, ⟨hok, rfl⟩, rfl⟩
      rw [h hok]
  have ha : Agrees lib c ↔ _ ∧ _ := ⟨fun h => ⟨h.accepts, h.stores⟩, fun h => ⟨h.1, h.2⟩⟩
  have hv := @valueOk_agree c.op (normalizeCondition c).value
  rw [ha, hf, hs, hst, Diverges]
  generalize ValueOk nextLine c.op (normalizeCondition c).value = form at hv ⊢
  generalize ValueOk byteOrderMark c.op (normalizeCondition c).value = server at hv ⊢
  generalize Fits c.op (normalizeCondition c).value = fits
  generalize Hinges c.op (normalizeCondition c).value = hinges at hv ⊢
  by_cases hk : KeepsPath c
  case pos =>
    simp only [hk, serverPath_iff hk, true_and, not_true, false_and, or_false, implies_true, and_true]
    by_cases hfits : fits <;> by_cases hp : FormPath c <;> simp [hfits, hp, hv]
  case neg =>
    simp only [hk, not_false_eq_true, true_and, false_and, false_or, imp_false]
    by_cases hfits : fits
    case pos => simp only [hfits, true_and, agree_refused]
    case neg => simp only [hfits, false_and, and_false, iff_self, not_false_eq_true, and_self]

end

-- The form and the server agree on numbers and on candidates just where the two characters do not
-- matter, and so they do on conditions.
theorem conditions_agree_iff (s : String) (lib : ConfigLib) (c : Condition) :
    ((isFiniteNumberText s ↔ (Monitor.parseFinite s).isSome) ↔
      (Padded s → (nextLine ∈ s.toList ↔ byteOrderMark ∈ s.toList))) ∧
    (oneOfCandidates s = Monitor.oneOfCandidates s ↔ ∀ l ∈ pieces s, Settled l) ∧
    (WellFormed lib c → (Agrees lib c ↔ ¬Diverges c)) := by
  refine ⟨?_, candidates_iff, agrees_iff⟩
  rw [form_number, server_number]
  tauto

def anyConfigLib : ConfigLib :=
  ⟨fun _ => true, fun _ => true⟩

-- A status is to be greater than five, which has been pasted with a byte order mark.
def markedCondition : Condition :=
  ⟨"", .status, "", .gt, "\uFEFF5", false, false⟩

theorem markedCondition_wellFormed : WellFormed anyConfigLib markedCondition where
  ulid    := rfl
  allowed := rfl
  valid   := by simp [markedCondition]
  simple  := by simp [markedCondition]

theorem mark_accepted_by_form_only :
    WellFormed anyConfigLib markedCondition ∧
      conditionError (normalizeCondition markedCondition) = none ∧
      Monitor.validateConditions anyConfigLib [normalizeCondition markedCondition] =
        .error "크기 비교 조건(>, <, ≥, ≤)의 비교값은 숫자여야 합니다" ∧
      isFiniteNumberText "\uFEFF5" ∧ Monitor.parseFinite "\uFEFF5" = none ∧
      oneOfCandidates "\uFEFF" = [] ∧ Monitor.oneOfCandidates "\uFEFF" = ["\uFEFF"] :=
  ⟨markedCondition_wellFormed, by decide +kernel, by decide +kernel, by decide +kernel,
    by decide +kernel, by decide +kernel, by decide +kernel⟩

theorem conditions_agree_at_mark :
    WellFormed anyConfigLib markedCondition ∧
      (Agrees anyConfigLib markedCondition ↔ ¬Diverges markedCondition) :=
  ⟨markedCondition_wellFormed, (conditions_agree_iff "" _ _).2.2 markedCondition_wellFormed⟩

end Ui
