import Handicap.Engine.Theorems.Positions
import Handicap.Ui.PickArray
import Mathlib.Algebra.Order.BigOperators.Group.List
import Mathlib.Algebra.Order.Group.Nat
import Mathlib.Data.List.TakeDrop
import Mathlib.Tactic.NormNum.Basic

-- The editor reads positions as the engine does.
namespace Ui

open Guard

variable {s : List Char} {length : ℕ}

theorem trimAscii_eq : trimAscii = Engine.trimAsciiWs :=
  rfl

theorem num_eq_some_iff {n : ℕ} : Engine.num s = some n ↔
    isNum (trimAscii s) ∧ Text.digitsValue (trimAscii s) = n := by
  rw [trimAscii_eq, Engine.num, isNum]
  cases h : Engine.trimAsciiWs s <;> simp [and_assoc]

theorem num_eq_none_iff : Engine.num s = none ↔ ¬isNum (trimAscii s) := by
  rw [trimAscii_eq, Engine.num, isNum]
  cases h : Engine.trimAsciiWs s <;> simp [imp_iff_not_or]

-- What stands before and after the first minus sign, or twice the whole if there is none.
def ends (item : List Char) : List Char × List Char :=
  let dash := item.idxOf '-'
  if dash = item.length then (item, item) else (item.take dash, item.drop (dash + 1))

theorem splitOnce_eq :
    Engine.splitOnce s = if s.idxOf '-' = s.length then none else some (ends s) := by
  have ht : s.takeWhile (· ≠ '-') = s.take (s.idxOf '-') := by
    simp [List.takeWhile_eq_take_findIdx_not, List.idxOf, beq_eq_decide]
  have hd : s.dropWhile (· ≠ '-') = s.drop (s.idxOf '-') := by
    simp [List.dropWhile_eq_drop_findIdx_not, List.idxOf, beq_eq_decide]
  unfold Engine.splitOnce
  rw [List.span_eq_takeWhile_dropWhile, ht, hd]
  split
  case h_1 x c y he =>
    obtain ⟨hx, hy⟩ := Prod.mk.inj he
    have hne : s.idxOf '-' ≠ s.length := fun h => by simp [h] at hy
    have hy : s.drop (s.idxOf '-' + 1) = y := by
      rw [← List.tail_drop, hy, List.tail_cons]
    rw [if_neg hne, ends, if_neg hne, hx, hy]
  case h_2 x he =>
    have hle : s.length ≤ s.idxOf '-' := List.drop_eq_nil_iff.mp (Prod.mk.inj he).2
    rw [if_pos (List.idxOf_le_length.antisymm hle)]

theorem item_eq : Engine.item s =
    (Engine.num (ends (trimAscii s)).1, Engine.num (ends (trimAscii s)).2) := by
  rw [Engine.item, ← trimAscii_eq, splitOnce_eq]
  split
  case h_1 he =>
    split at he
    case isTrue  => simp at he
    case isFalse => rw [Option.some.inj he]
  case h_2 he =>
    split at he
    case isTrue h => simp [ends, h]
    case isFalse  => simp at he

theorem markItems_cons {i : ℕ} {mark : ℕ → Bool} {raw : List Char} {raws : List (List Char)} :
    markItems length i mark (raw :: raws) =
      if ¬isNum (trimAscii (ends (trimAscii raw)).1) ∨
          ¬isNum (trimAscii (ends (trimAscii raw)).2) then
        .error (.badItem i)
      else
        let a := Text.digitsValue (trimAscii (ends (trimAscii raw)).1)
        let b := Text.digitsValue (trimAscii (ends (trimAscii raw)).2)
        if b < a then .error (.reversed i)
        else if a < 1 ∨ length < b then .error (.outOfRange i)
        else markItems length (i + 1) (fun p => mark p || (a ≤ p && p ≤ b)) raws :=
  rfl

-- Item by item, both loops mark the same positions or refuse.
theorem markItems_eq {i : ℕ} {mark : ℕ → Bool} {raws : List (List Char)} :
    (markItems length i mark raws).toOption = (Engine.markItems length i mark raws).toOption := by
  induction raws generalizing i mark
  case nil => rfl
  case cons raw raws ih =>
    rw [markItems_cons, Engine.markItems, item_eq]
    cases ha : Engine.num (ends (trimAscii raw)).1
    case none => rw [if_pos (.inl (num_eq_none_iff.1 ha))]; rfl
    case some a =>
      cases hb : Engine.num (ends (trimAscii raw)).2
      case none => rw [if_pos (.inr (num_eq_none_iff.1 hb))]; rfl
      case some b =>
        obtain ⟨hna, rfl⟩ := num_eq_some_iff.1 ha
        obtain ⟨hnb, rfl⟩ := num_eq_some_iff.1 hb
        rw [if_neg (by simp [hna, hnb])]
        simp only [refuse]
        split
        case isTrue  => rfl
        case isFalse =>
          split
          case isTrue  => rfl
          case isFalse => exact ih

-- The characters that positions are written with.
def IsPlain (c : Char) : Prop :=
  c.isDigit ∨ c = '-' ∨ c = ',' ∨ Engine.isAsciiWhitespace c

-- They are one byte long.
theorem IsPlain.toNat_lt {c : Char} (h : IsPlain c) : c.toNat < 128 := by
  obtain h | rfl | rfl | h := h
  case inl         => exact (Char.isDigit_iff_toNat.mp h).2.trans_lt (by decide)
  case inr.inl     => decide
  case inr.inr.inl => decide
  case inr.inr.inr =>
    have hc : c ∈ [' ', '\t', '\n', '\r', '\x0c'] := by simpa [Engine.isAsciiWhitespace] using h
    have ha : ∀ c ∈ [' ', '\t', '\n', '\r', '\x0c'], c.toNat < 128 := by simp
    exact ha c hc

theorem utf16Length_of_plain (h : ∀ c ∈ s, IsPlain c) : utf16Length s = Engine.byteLength s := by
  refine congrArg List.sum (List.map_congr_left fun c hc => ?_)
  have hc : c.toNat < 128 := (h c hc).toNat_lt
  have hv : c.val ≤ 127 := by
    simp only [Char.toNat] at hc
    exact UInt32.le_iff_toNat_le.mpr (by simpa using Nat.le_of_lt_succ hc)
  rw [Char.utf8Size_eq_one_iff.mpr hv, if_neg (by omega)]

theorem plain_of_trimAscii (h : ∀ c ∈ trimAscii s, IsPlain c) : ∀ c ∈ s, IsPlain c := by
  intro c hc
  cases Text.mem_strip_or Engine.isAsciiWhitespace s hc
  case inl hc => exact h c hc
  case inr hc => exact .inr (.inr (.inr hc))

theorem plain_of_num {n : ℕ} (h : Engine.num s = some n) : ∀ c ∈ s, IsPlain c := by
  have hd : (trimAscii s).all Char.isDigit := by
    have hn := (num_eq_some_iff.1 h).1
    simp only [isNum, Bool.and_eq_true] at hn
    exact hn.2
  exact plain_of_trimAscii fun c hc => .inl (List.all_eq_true.mp hd c hc)

theorem mem_ends {c : Char} (h : c ∈ s) : c = '-' ∨ c ∈ (ends s).1 ∨ c ∈ (ends s).2 := by
  unfold ends
  simp only
  split
  case isTrue => exact .inr (.inl h)
  case isFalse hne =>
    have hlt : s.idxOf '-' < s.length := lt_of_le_of_ne List.idxOf_le_length hne
    rw [← List.take_append_drop (s.idxOf '-') s, List.drop_eq_getElem_cons hlt,
      List.getElem_idxOf hlt] at h
    simp only [List.mem_append, List.mem_cons] at h
    tauto

theorem plain_of_item {a b : ℕ} (h : Engine.item s = (some a, some b)) : ∀ c ∈ s, IsPlain c := by
  rw [item_eq] at h
  have ⟨ha, hb⟩ := Prod.mk.inj h
  refine plain_of_trimAscii fun c hc => ?_
  obtain rfl | hc | hc := mem_ends hc
  case inl     => exact .inr (.inl rfl)
  case inr.inl => exact plain_of_num ha c hc
  case inr.inr => exact plain_of_num hb c hc

theorem plain_of_markItems {i : ℕ} {mark mark' : ℕ → Bool} {raws : List (List Char)}
    (h : Engine.markItems length i mark raws = .ok mark') : ∀ raw ∈ raws, ∀ c ∈ raw, IsPlain c := by
  induction raws generalizing i mark
  case nil => simp
  case cons raw raws ih =>
    rw [Engine.markItems] at h
    split at h
    case h_2 => simp at h
    case h_1 a b hi =>
      obtain ⟨_, _, h⟩ := bind_eq_ok.mp h
      obtain ⟨_, _, h⟩ := bind_eq_ok.mp h
      exact List.forall_mem_cons.mpr ⟨plain_of_item hi, ih h⟩

theorem mem_intercalate {α : Type} {ls : List (List α)} {x a : α}
    (h : a ∈ (ls.intersperse [x]).flatten) : a = x ∨ ∃ l ∈ ls, a ∈ l := by
  induction ls
  case nil => simp at h
  case cons l ls ih =>
    cases ls
    case nil => exact .inr ⟨l, by simp, by simpa using h⟩
    case cons l' ls =>
      rw [List.intersperse_cons_cons] at h
      simp only [List.flatten_cons, List.mem_append, List.mem_singleton] at h
      obtain h | h | h := h
      case inl     => exact .inr ⟨l, by simp, h⟩
      case inr.inl => exact .inl h
      case inr.inr =>
        refine (ih h).imp_right fun ⟨l'', hl, ha⟩ => ⟨l'', List.mem_cons_of_mem _ hl, ha⟩

theorem plain_of_splitOn (h : ∀ raw ∈ s.splitOn ',', ∀ c ∈ raw, IsPlain c) :
    ∀ c ∈ s, IsPlain c := by
  intro c hc
  have hs : [','].intercalate (s.splitOn ',') = s := List.intercalate_splitOn ','
  rw [← hs] at hc
  obtain rfl | ⟨l, hl, hc⟩ := mem_intercalate hc
  case inl => exact .inr (.inr (.inl rfl))
  case inr => exact h l hl c hc

theorem isPickLength_iff : isPickLength length ↔ 1 ≤ length ∧ length ≤ pickArrayMaxLen := by
  simp [isPickLength, Rat.isInt, and_comm]

theorem toOption_map {ε α β : Type} {x : Except ε α} {f : α → β} :
    (x.map f).toOption = x.toOption.map f := by
  cases x <;> rfl

-- The positions of a text that is not too long.
def positionsOf (text : String) (length : ℕ) : Option (List ℕ) :=
  if trimAscii text.toList = [] then
    some []
  else
    (Engine.markItems length 1 (fun _ => false) (text.toList.splitOn ',')).toOption.map fun mark =>
      (List.range' 1 length).filter mark

theorem toOption_eq_none {ε α : Type} {x : Except ε α} (h : ∀ a, x ≠ .ok a) :
    x.toOption = none := by
  cases x
  case error => rfl
  case ok a  => exact absurd rfl (h a)

theorem plain_of_positionsOf {text : String} {set : List ℕ} (h : positionsOf text length = some set) :
    ∀ c ∈ text.toList, IsPlain c := by
  unfold positionsOf at h
  split at h
  case isTrue he => exact plain_of_trimAscii (by simp [he])
  case isFalse =>
    cases hm : Engine.markItems length 1 (fun _ => false) (text.toList.splitOn ',')
    case error e => simp [hm, Except.toOption] at h
    case ok mark => exact plain_of_splitOn (plain_of_markItems hm)

theorem engine_parsePositions (text : String) :
    (Engine.parsePositions text length).toOption =
      if (1 ≤ length ∧ length ≤ pickArrayMaxLen) ∧
          Engine.byteLength text.toList ≤ positionsMaxChars then
        positionsOf text length
      else
        none := by
  by_cases hc : (1 ≤ length ∧ length ≤ pickArrayMaxLen) ∧
      Engine.byteLength text.toList ≤ positionsMaxChars
  case neg =>
    rw [if_neg hc]
    refine toOption_eq_none fun set h => hc ?_
    have ⟨_, hl, h⟩ := bind_eq_ok.mp h
    have ⟨_, hb, _⟩ := bind_eq_ok.mp h
    exact ⟨not_not.mp (refuse_eq_ok.mp hl), not_lt.mp (refuse_eq_ok.mp hb)⟩
  case pos =>
    have he : Engine.parsePositions text length =
        if trimAscii text.toList = [] then .ok [] else
          (Engine.markItems length 1 (fun _ => false) (text.toList.splitOn ',')).map fun mark =>
            (List.range' 1 length).filter mark := by
      have hl {e : String} : refuse (¬(1 ≤ length ∧ length ≤ Engine.pickArrayMaxLen)) e = .ok () :=
        refuse_eq_ok.mpr (not_not.mpr hc.1)
      have hb {e : String} :
          refuse (Engine.positionsMaxChars < Engine.byteLength text.toList) e = .ok () :=
        refuse_eq_ok.mpr (not_lt.mpr hc.2)
      simp only [Engine.parsePositions, hl, hb]
      exact if_congr Iff.rfl rfl (by cases Engine.markItems .. <;> rfl)
    rw [if_pos hc, he, positionsOf]
    split
    case isTrue  => rfl
    case isFalse => exact toOption_map

-- A text whose encodings differ in length is refused for another reason.
theorem parsePositions_eq (text : String) :
    (parsePositions text length).toOption = (Engine.parsePositions text length).toOption := by
  have hm : (markItems length 1 (fun _ => false) (text.toList.splitOn ',')).toOption =
      (Engine.markItems length 1 (fun _ => false) (text.toList.splitOn ',')).toOption := markItems_eq
  have hn : (length : ℚ).num.toNat = length := by simp
  have hu : (parsePositions text length).toOption =
      if (1 ≤ length ∧ length ≤ pickArrayMaxLen) ∧
          utf16Length text.toList ≤ positionsMaxChars then
        positionsOf text length
      else
        none := by
    simp only [parsePositions, hn, positionsOf, ← hm]
    by_cases hl : 1 ≤ length ∧ length ≤ pickArrayMaxLen
    case neg =>
      rw [if_pos (by simpa [isPickLength_iff] using hl), if_neg fun h => hl h.1]
      rfl
    case pos =>
      rw [if_neg (by simpa [isPickLength_iff] using hl)]
      by_cases hb : positionsMaxChars < utf16Length text.toList
      case pos =>
        rw [if_pos hb, if_neg fun h => hb.not_ge h.2]
        rfl
      case neg =>
        have hc : (1 ≤ length ∧ length ≤ pickArrayMaxLen) ∧
            utf16Length text.toList ≤ positionsMaxChars := ⟨hl, not_lt.mp hb⟩
        rw [if_neg hb, if_pos hc]
        split
        case isTrue  => rfl
        case isFalse => exact toOption_map
  rw [hu, engine_parsePositions]
  cases hp : positionsOf text length
  case none     => simp
  case some set => rw [utf16Length_of_plain (plain_of_positionsOf hp)]

theorem parsePositions_int (text : String) (n : ℤ) :
    (parsePositions text n).toOption = (Engine.parsePositions text n.toNat).toOption := by
  cases n
  case ofNat n => exact parsePositions_eq text
  case negSucc n =>
    have hn : ¬isPickLength (Int.negSucc n : ℤ) := by
      intro h
      simp only [isPickLength, Bool.and_eq_true, decide_eq_true_eq] at h
      have h1 : (1 : ℤ) ≤ Int.negSucc n := by exact_mod_cast h.left.right
      have h0 := Int.negSucc_lt_zero n
      omega
    rw [parsePositions, if_pos hn, engine_parsePositions, if_neg fun h => by simp at h]
    rfl

-- The engine reads just the texts of the grammar, as the positions of their ranges, and the editor
-- reads the same ones.
theorem positions_grammar (text : String) (length : ℕ) :
    ((∃ set, Engine.parsePositions text length = .ok set) ↔
      (1 ≤ length ∧ length ≤ 1000) ∧ Engine.byteLength text.toList ≤ 4096 ∧
        ∃ ranges, Engine.Spells length text.toList ranges) ∧
    (∀ set ranges, Engine.parsePositions text length = .ok set →
      Engine.Spells length text.toList ranges →
      set.Pairwise (· < ·) ∧ ∀ p, p ∈ set ↔ ∃ r ∈ ranges, r.1 ≤ p ∧ p ≤ r.2) ∧
    ∀ n : ℤ, (parsePositions text n).toOption = (Engine.parsePositions text n.toNat).toOption := by
  refine ⟨⟨fun ⟨_, h⟩ => Engine.spells_of_parsePositions h, fun ⟨hl, hb, _, h⟩ => ?_⟩,
    fun set ranges hp h => Engine.mem_positions_iff h hp, parsePositions_int text⟩
  exact ⟨_, Engine.parsePositions_of_spells hl hb h⟩

-- A text with another character is refused.
theorem parsePositions_of_not_plain {text : String} {c : Char} (hc : c ∈ text.toList)
    (hp : ¬IsPlain c) : (Engine.parsePositions text length).toOption = none := by
  rw [engine_parsePositions]
  cases h : positionsOf text length
  case none     => simp
  case some set => exact absurd (plain_of_positionsOf h c hc) hp

-- So is a number of more than four digits.
theorem parsePositions_toString {n : ℕ} (h : 10 ^ 4 ≤ n) :
    (Engine.parsePositions (toString n) length).toOption = none := by
  have he : (toString n).toList = Nat.toDigits 10 n := by simp
  have hd : ∀ c ∈ Nat.toDigits 10 n, c.isDigit :=
    fun c hc => Nat.isDigit_of_mem_toDigits (by decide) (by decide) hc
  have hne {c : Char} (hc : c.isDigit = false) : c ∉ Nat.toDigits 10 n :=
    fun hm => by simp [hd c hm] at hc
  have ht : trimAscii (Nat.toDigits 10 n) = Nat.toDigits 10 n := by
    refine Text.strip_eq_self fun c hc hw => ?_
    have hs : ∀ c ∈ [' ', '\t', '\n', '\r', '\x0c'], c.isDigit = false := by simp
    exact hne (hs c (by simpa using hw)) hc
  have hl : ¬(Nat.toDigits 10 n).length ≤ 4 := by
    rw [Nat.length_toDigits_le_iff (by decide) (by decide)]
    exact h.not_gt
  have hs : (Nat.toDigits 10 n).splitOn ',' = [Nat.toDigits 10 n] := by
    refine List.splitOnP_eq_singleton fun c hc => ?_
    exact beq_false_of_ne fun he => hne (by decide) (he ▸ hc)
  have hi : Engine.item (Nat.toDigits 10 n) = (none, none) := by
    have hx : (Nat.toDigits 10 n).idxOf '-' = (Nat.toDigits 10 n).length :=
      List.idxOf_eq_length_iff.mpr (hne (by decide))
    have hn : Engine.num (Nat.toDigits 10 n) = none := by
      rw [num_eq_none_iff, ht, isNum]
      simp [hl]
    rw [item_eq, ht, ends]
    simp [hx, hn]
  rw [engine_parsePositions, positionsOf, he, ht, hs, if_neg Nat.toDigits_ne_nil, Engine.markItems, hi]
  simp [Except.toOption]

end Ui
