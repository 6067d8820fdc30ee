import Handicap.Ui.PickText
import Handicap.Ui.Theorems.PickArray

-- The texts of a picked array are read as what they have been written for.
namespace Ui

section Positions

open Engine (IsRange IsItem Spells covered)

variable {first last n p : ℕ} {xs set : List ℕ} {run : ℕ × ℕ}

-- The positions of the runs are those that have been read.
theorem covered_positionRuns (h : first ≤ last) : covered (positionRuns first last xs) p ↔
    (first ≤ p ∧ p ≤ last) ∨ p ∈ xs := by
  induction xs generalizing first last
  case nil => simp [positionRuns, covered]
  case cons x xs ih =>
    rw [positionRuns]
    split
    case isTrue hx =>
      rw [ih (by omega), List.mem_cons]
      grind
    case isFalse hx =>
      have hc : covered ((first, last) :: positionRuns x x xs) p ↔
          (first ≤ p ∧ p ≤ last) ∨ covered (positionRuns x x xs) p := by simp [covered]
      rw [hc, ih le_rfl, List.mem_cons]
      grind

theorem positionRuns_within (h1 : 1 ≤ first) (h : first ≤ last)
    (hs : (last :: xs).Pairwise (· < ·)) (hn : ∀ x ∈ last :: xs, x ≤ n) :
    ∀ run ∈ positionRuns first last xs, 1 ≤ run.1 ∧ run.1 ≤ run.2 ∧ run.2 ≤ n := by
  induction xs generalizing first last
  case nil =>
    have hl := hn last (by simp)
    simp [positionRuns, h1, h, hl]
  case cons x xs ih =>
    obtain ⟨hlt, hs⟩ := List.pairwise_cons.mp hs
    obtain ⟨hl, hn⟩ := List.forall_mem_cons.mp hn
    have hx := hlt x (by simp)
    rw [positionRuns]
    split
    case isTrue  => exact ih h1 (by omega) hs hn
    case isFalse => exact List.forall_mem_cons.mpr ⟨⟨h1, h, hl⟩, ih (by omega) le_rfl hs hn⟩

-- A run takes up its positions and the one behind it.
theorem sum_positionRuns (h : first ≤ last) (hs : (last :: xs).Pairwise (· < ·))
    (hn : ∀ x ∈ last :: xs, x ≤ n) :
    ((positionRuns first last xs).map fun run => run.2 - run.1 + 2).sum + first ≤ n + 2 := by
  induction xs generalizing first last
  case nil =>
    have hl := hn last (by simp)
    simp [positionRuns]
    omega
  case cons x xs ih =>
    obtain ⟨hlt, hs⟩ := List.pairwise_cons.mp hs
    obtain ⟨_, hn⟩ := List.forall_mem_cons.mp hn
    have hx := hlt x (by simp)
    rw [positionRuns]
    split
    case isTrue => exact ih (by omega) hs hn
    case isFalse he =>
      have hi := ih le_rfl hs hn
      rw [List.map_cons, List.sum_cons]
      omega

theorem isNumber_toString (h : n ≤ 1000) : Engine.IsNumber (toString n).toList n := by
  have hd : (Nat.toDigits 10 n).length ≤ 4 := by
    rw [Nat.length_toDigits_le_iff (by decide) (by decide)]
    omega
  refine ⟨[], Nat.toDigits 10 n, [], by simp, by simp, by simp, ?_, ?_, hd, ?_⟩
  case refine_1 => exact fun c hc => Nat.isDigit_of_mem_toDigits (by decide) (by decide) hc
  case refine_2 => exact List.length_pos_of_ne_nil Nat.toDigits_ne_nil
  case refine_3 => exact Text.digitsValue_toDigits n

theorem runText_toList : (runText run).toList =
    if run.1 = run.2 then (toString run.1).toList
    else (toString run.1).toList ++ '-' :: (toString run.2).toList := by
  unfold runText
  split
  case isTrue  => rfl
  case isFalse =>
    simp [String.toList_append]
    rfl

theorem isRange_runText (h : run.1 ≤ run.2) (hn : run.2 ≤ 1000) :
    IsRange (runText run).toList run := by
  rw [runText_toList]
  split
  case isTrue he  => exact .inl ⟨isNumber_toString (by omega), he.symm⟩
  case isFalse he =>
    exact .inr ⟨_, _, rfl, isNumber_toString (by omega), isNumber_toString hn⟩

theorem length_runText (h : run.1 ≤ run.2) (hn : run.2 ≤ 1000) :
    3 * (runText run).toList.length + 6 ≤ 11 * (run.2 - run.1 + 2) := by
  have hd {n : ℕ} (h : n ≤ 1000) : (toString n).toList.length ≤ 4 := by
    rw [show (toString n).toList = Nat.toDigits 10 n by simp,
      Nat.length_toDigits_le_iff (by decide) (by decide)]
    omega
  have h1 := hd (h.trans hn)
  have h2 := hd hn
  rw [runText_toList]
  split
  case isTrue he => omega
  case isFalse he =>
    rw [List.length_append, List.length_cons]
    omega

-- The space after a comma is part of the next item.
theorem intercalate_comma (l : List Char) (ls : List (List Char)) :
    [',', ' '].intercalate (l :: ls) = [','].intercalate (l :: ls.map (' ' :: ·)) := by
  induction ls generalizing l
  case nil => simp
  case cons l' ls ih =>
    rw [List.intercalate_cons_cons, ih, List.map_cons, List.intercalate_cons_cons]
    cases ls
    case nil => simp
    case cons l'' ls => simp [List.intercalate_cons_cons]

theorem isRange_space {s : List Char} (h : IsRange s run) : IsRange (' ' :: s) run := by
  have hp {s : List Char} {n : ℕ} (h : Engine.IsNumber s n) : Engine.IsNumber (' ' :: s) n := by
    have hf : ∀ c ∈ [' '], Engine.isAsciiWhitespace c :=
      fun c hc => by rw [List.mem_singleton.mp hc]; rfl
    have hb : ∀ c ∈ ([] : List Char), Engine.isAsciiWhitespace c := by simp
    have h := h.pad hf hb
    rwa [List.append_nil] at h
  obtain ⟨h, he⟩ | ⟨x, y, rfl, hx, hy⟩ := h
  case inl => exact .inl ⟨hp h, he⟩
  case inr => exact .inr ⟨' ' :: x, y, rfl, hp hx, hy⟩

theorem length_intercalate {ls : List (List Char)} (h : ls ≠ []) :
    ([',', ' '].intercalate ls).length + 2 = (ls.map fun l => l.length + 2).sum := by
  induction ls
  case nil => exact absurd rfl h
  case cons l ls ih =>
    cases ls
    case nil => simp
    case cons l' ls =>
      have ih := ih (List.cons_ne_nil _ _)
      rw [List.intercalate_cons_cons, List.map_cons, List.sum_cons, ← ih]
      simp
      omega

-- The text of runs, and the items that it consists of.
theorem spells_runs {runs : List (ℕ × ℕ)} (hne : runs ≠ [])
    (h : ∀ run ∈ runs, 1 ≤ run.1 ∧ run.1 ≤ run.2 ∧ run.2 ≤ n) (hn : n ≤ 1000) :
    Spells n (", ".intercalate (runs.map runText)).toList runs := by
  obtain ⟨first, rest, rfl⟩ := List.exists_cons_of_ne_nil hne
  have hi {run : ℕ × ℕ} (hr : run ∈ first :: rest) : IsItem n (runText run).toList run := by
    obtain ⟨h1, h2, h3⟩ := h run hr
    exact ⟨isRange_runText h2 (h3.trans hn), h1, h2, h3⟩
  have ht : (", ".intercalate ((first :: rest).map runText)).toList = [','].intercalate
      ((runText first).toList :: rest.map fun run => ' ' :: (runText run).toList) := by
    rw [String.toList_intercalate, List.map_map, List.map_cons]
    exact (intercalate_comma _ _).trans (by rw [List.map_map]; rfl)
  refine .items (List.cons_ne_nil _ _) ht (.cons (hi (by simp)) ?_)
  rw [List.forall₂_map_left_iff]
  refine List.forall₂_same.mpr fun run hr => ?_
  obtain ⟨hr, h⟩ := hi (List.mem_cons_of_mem _ hr)
  exact ⟨isRange_space hr, h⟩

theorem sum_lengths {runs : List (ℕ × ℕ)} (h : ∀ run ∈ runs, run.1 ≤ run.2 ∧ run.2 ≤ 1000) :
    3 * (runs.map fun run => (runText run).toList.length + 2).sum ≤
      11 * (runs.map fun run => run.2 - run.1 + 2).sum := by
  induction runs
  case nil => simp
  case cons run runs ih =>
    obtain ⟨⟨h1, h2⟩, h⟩ := List.forall_mem_cons.mp h
    have hr := length_runText h1 h2
    have hi := ih h
    simp only [List.map_cons, List.sum_cons]
    omega

theorem length_runs {runs : List (ℕ × ℕ)} (hne : runs ≠ [])
    (h : ∀ run ∈ runs, run.1 ≤ run.2 ∧ run.2 ≤ 1000)
    (hs : (runs.map fun run => run.2 - run.1 + 2).sum ≤ 1001) :
    (", ".intercalate (runs.map runText)).toList.length ≤ 4096 := by
  have hne' : (runs.map runText).map String.toList ≠ [] := by simpa using hne
  have hl := length_intercalate hne'
  have hle := sum_lengths h
  rw [String.toList_intercalate]
  simp only [List.map_map, Function.comp_def] at hl ⊢
  have hc : ", ".toList = [',', ' '] := rfl
  rw [hc]
  omega

theorem byteLength_of_plain {s : List Char} (h : ∀ c ∈ s, IsPlain c) :
    Engine.byteLength s = s.length := by
  have hs : ∀ c ∈ s, c.utf8Size = 1 := by
    intro c hc
    have hc : c.toNat < 128 := (h c hc).toNat_lt
    refine Char.utf8Size_eq_one_iff.mpr ?_
    simp only [Char.toNat] at hc
    exact UInt32.le_iff_toNat_le.mpr (by simpa using Nat.le_of_lt_succ hc)
  rw [Engine.byteLength, List.map_congr_left hs]
  simp

theorem toOption_eq_some {ε α : Type} {x : Except ε α} {a : α} :
    x.toOption = some a ↔ x = .ok a := by
  cases x
  case error e => simp [Except.toOption]
  case ok b    => simp [Except.toOption]

theorem parsePositions_eq_ok {text : String} :
    parsePositions text n = .ok set ↔ Engine.parsePositions text n = .ok set := by
  rw [← toOption_eq_some, parsePositions_eq, toOption_eq_some]

theorem eq_of_increasing {l m : List ℕ} (hl : l.Pairwise (· < ·)) (hm : m.Pairwise (· < ·))
    (h : ∀ p, p ∈ l ↔ p ∈ m) : l = m := by
  have hp : l.Perm m := (List.perm_ext_iff_of_nodup (hl.imp ne_of_lt) (hm.imp ne_of_lt)).mpr h
  exact hp.eq_of_pairwise (fun a b _ _ h h' => absurd (h.trans h') (lt_irrefl a)) hl hm

-- The positions of a set in their order.
theorem sorted_positions (set : List ℕ) : set.dedup.mergeSort.Pairwise (· < ·) ∧
    ∀ p, p ∈ set.dedup.mergeSort ↔ p ∈ set := by
  refine ⟨?_, fun p => by rw [List.mem_mergeSort, List.mem_dedup]⟩
  have hle : set.dedup.mergeSort.Pairwise (fun a b => decide (a ≤ b) = true) :=
    List.pairwise_mergeSort (by simp; omega) (by simp; omega) _
  have hne : set.dedup.mergeSort.Pairwise (· ≠ ·) :=
    (List.mergeSort_perm _ _).nodup_iff.mpr (List.nodup_dedup set)
  refine (hle.and hne).imp fun h => ?_
  exact lt_of_le_of_ne (of_decide_eq_true h.1) h.2

theorem plain_of_spells {s : List Char} {ranges : List (ℕ × ℕ)} (h : Spells n s ranges) :
    ∀ c ∈ s, IsPlain c := by
  cases h
  case blank h => exact fun c hc => .inr (.inr (.inr (h c hc)))
  case items raws hne ht hi =>
    subst ht
    have hm := plain_of_markItems (@Engine.markItems_of_items n 1 (fun _ => false) _ _ hi)
    intro c hc
    obtain rfl | ⟨l, hl, hc⟩ := mem_intercalate hc
    case inl => exact .inr (.inr (.inl rfl))
    case inr => exact hm l hl c hc

-- The text of positions is short enough, and is read as them.
theorem parse_formatPositions (h1 : 1 ≤ n) (hn : n ≤ 1000) (hs : ∀ p ∈ set, 1 ≤ p ∧ p ≤ n) :
    utf16Length (formatPositions set).toList ≤ 4096 ∧
      parsePositions (formatPositions set) n = .ok ((List.range' 1 n).filter (· ∈ set)) := by
  obtain ⟨hsort, hmem⟩ := sorted_positions set
  have hl : 1 ≤ n ∧ n ≤ Engine.pickArrayMaxLen := ⟨h1, hn⟩
  unfold formatPositions
  split
  case h_1 hnil =>
    have hset : ∀ p, p ∉ set := fun p hp => by simpa [hnil] using (hmem p).mpr hp
    refine ⟨by decide, parsePositions_eq_ok.2 ?_⟩
    have hsp : Spells n "".toList [] := .blank (by simp)
    rw [Engine.parsePositions_of_spells hl (by decide) hsp]
    simp [hset, covered]
  case h_2 x xs hcons =>
    rw [hcons] at hsort hmem
    have hin : ∀ y ∈ x :: xs, 1 ≤ y ∧ y ≤ n := fun y hy => hs y ((hmem y).mp hy)
    have hle : ∀ y ∈ x :: xs, y ≤ n := fun y hy => (hin y hy).2
    have hruns := positionRuns_within (hin x (by simp)).1 le_rfl hsort hle
    have hsum := sum_positionRuns le_rfl hsort hle
    have hne : positionRuns x x xs ≠ [] := by
      intro he
      have hc : covered (positionRuns x x xs) x :=
        (covered_positionRuns le_rfl).mpr (.inl ⟨le_rfl, le_rfl⟩)
      rw [he] at hc
      cases hc
    have hsp := spells_runs hne hruns hn
    have hlen := length_runs hne (fun run hr => ⟨(hruns run hr).2.1, (hruns run hr).2.2.trans hn⟩)
      (by have := (hin x (by simp)).1; omega)
    have hplain := plain_of_spells hsp
    have hbytes := byteLength_of_plain hplain
    refine ⟨by rw [utf16Length_of_plain hplain, hbytes]; exact hlen, parsePositions_eq_ok.2 ?_⟩
    rw [Engine.parsePositions_of_spells hl (by rw [hbytes]; exact hlen) hsp]
    refine congrArg Except.ok (List.filter_congr fun p _ => ?_)
    rw [Bool.eq_iff_iff, covered_positionRuns le_rfl, decide_eq_true_eq, ← hmem, List.mem_cons]
    refine or_congr_left ?_
    omega

theorem isFullRange_iff {length : ℕ} : isFullRange set length ↔ set = List.range' 1 length := by
  simp only [isFullRange, Bool.and_eq_true, decide_eq_true_eq, List.all_eq_true]
  constructor
  case mp =>
    intro ⟨hl, h⟩
    refine List.ext_getElem (by simpa using hl) fun i hi _ => ?_
    have hp := h (set[i], i) (List.mem_zipIdx_iff_getElem?.mpr (by simp))
    simpa [Nat.add_comm] using hp
  case mpr =>
    rintro rfl
    refine ⟨by simp, fun p hp => ?_⟩
    obtain ⟨hi, hp⟩ := List.getElem?_eq_some_iff.mp (List.mem_zipIdx_iff_getElem?.mp hp)
    rw [← hp, List.getElem_range']
    omega

-- The positions that are read lie in their range and come in their order.
theorem positions_increasing {text : String} (h : parsePositions text n = .ok set) :
    set.Pairwise (· < ·) ∧ ∀ p ∈ set, 1 ≤ p ∧ p ≤ n := by
  have h := parsePositions_eq_ok.1 h
  obtain ⟨-, -, ranges, hs⟩ := Engine.spells_of_parsePositions h
  obtain ⟨hi, hm⟩ := Engine.mem_positions_iff hs h
  refine ⟨hi, fun p hp => ?_⟩
  obtain ⟨r, hr, h1, h2⟩ := (hm p).mp hp
  obtain ⟨h3, h4⟩ := hs.within r hr
  omega

theorem parse_fullRange (h1 : 1 ≤ n) (hn : n ≤ 1000) :
    parsePositions s!"1-{n}" n = .ok (List.range' 1 n) := by
  have ht : s!"1-{n}".toList = (toString 1).toList ++ '-' :: (toString n).toList := by
    simp [String.toList_append]
    rfl
  have hsp : Spells n s!"1-{n}".toList [(1, n)] := by
    rw [ht]
    refine .items (List.cons_ne_nil _ _) (List.intercalate_singleton).symm (.cons ⟨?_, ?_⟩ .nil)
    case refine_1 => exact .inr ⟨_, _, rfl, isNumber_toString (by decide), isNumber_toString hn⟩
    case refine_2 => exact ⟨le_rfl, h1, le_rfl⟩
  have hd : (Nat.toDigits 10 n).length ≤ 4 := by
    rw [Nat.length_toDigits_le_iff (by decide) (by decide)]
    omega
  have hlen : s!"1-{n}".toList.length ≤ 4096 := by
    have h1 : (toString 1).toList.length = 1 := rfl
    have h2 : (toString n).toList = Nat.toDigits 10 n := by simp
    rw [ht, List.length_append, List.length_cons, h1, h2]
    omega
  rw [parsePositions_eq_ok, Engine.parsePositions_of_spells ⟨h1, hn⟩
    (by rw [byteLength_of_plain (plain_of_spells hsp)]; exact hlen) hsp]
  refine congrArg Except.ok (List.filter_eq_self.mpr fun p hp => ?_)
  have hp := List.mem_range'_1.mp hp
  simp [covered]
  omega

-- A text for one length, made to fit another one, leaves out what lies beyond, or grows with it
-- where it has been the whole range.
theorem parse_trimPositions {text : String} {base : ℕ} (h : parsePositions text base = .ok set)
    (h1 : 1 ≤ n) (hn : n ≤ 1000) :
    parsePositions (trimPositionsForLength text base n) n =
      .ok (if set = List.range' 1 base then List.range' 1 n else set.filter (· ≤ n)) := by
  obtain ⟨hi, hin⟩ := positions_increasing h
  unfold trimPositionsForLength
  by_cases hb : n = base
  case pos =>
    subst hb
    rw [if_pos rfl, h]
    split
    case isTrue he => rw [he]
    case isFalse =>
      rw [List.filter_eq_self.mpr fun p hp => decide_eq_true (hin p hp).2]
  rw [if_neg hb, h]
  simp only [isFullRange_iff]
  split
  case isTrue =>
    exact parse_fullRange h1 hn
  case isFalse =>
    have hf : ∀ p ∈ set.filter (· ≤ n), 1 ≤ p ∧ p ≤ n := by
      intro p hp
      obtain ⟨hp, hle⟩ := List.mem_filter.mp hp
      exact ⟨(hin p hp).1, of_decide_eq_true hle⟩
    rw [(parse_formatPositions h1 hn hf).2]
    refine congrArg Except.ok (eq_of_increasing ?_ (hi.filter _) fun p => ?_)
    case refine_1 => exact (List.pairwise_lt_range' ..).filter _
    case refine_2 =>
      simp only [List.mem_filter, List.mem_range'_1, decide_eq_true_eq, and_iff_right_iff_imp]
      intro h
      obtain ⟨h1, h2⟩ := hf p (List.mem_filter.mpr ⟨h.1, decide_eq_true h.2⟩)
      omega

end Positions

section Literals

open Utf16 (isHigh isLow)

variable {s t : Utf16} {u : UInt16}

theorem char_toNat {c : Char} (h : Utf16.char u = c) (hc : c.toNat ≠ 0) : u.toNat = c.toNat := by
  subst h
  by_cases hv : u.toNat.isValidChar
  case pos =>
    have h : Utf16.char u = Char.ofNatAux u.toNat hv := dif_pos hv
    exact (congrArg Char.toNat h).symm
  case neg =>
    have h : Utf16.char u = ⟨0, .inl (by decide)⟩ := dif_neg hv
    exact absurd (congrArg Char.toNat h) hc

theorem hexValue_hexUnit : ∀ n < 16, hexValue (hexUnit n) = some n := by
  decide

theorem readString_escape : readString (escapeUnit u ++ t) = (readString t).map (u :: ·) := by
  have hu : u.toNat < 65536 := u.toNat_lt
  have hs : ((u.toNat / 4096 % 16 * 16 + u.toNat / 256 % 16) * 16 + u.toNat / 16 % 16) * 16 +
      u.toNat % 16 = u.toNat := by omega
  have h (n : ℕ) : hexValue (hexUnit (n % 16)) = some (n % 16) :=
    hexValue_hexUnit _ (Nat.mod_lt _ (by decide))
  have hu' : UInt16.ofNat (((u.toNat / 4096 % 16 * 16 + u.toNat / 256 % 16) * 16 +
      u.toNat / 16 % 16) * 16 + u.toNat % 16) = u := by rw [hs, UInt16.ofNat_toNat]
  rw [escapeUnit, Utf16.ofText]
  simp only [List.map_cons, List.map_nil, List.cons_append, List.nil_append]
  rw [readString, if_neg (by decide), if_neg (by decide), if_pos (by decide)]
  simp only [h]
  rw [if_pos (by decide)]
  cases ht : readString t
  case none   => rfl
  case some v => exact congrArg (fun u => some (u :: v)) hu'

-- A unit as it is.
theorem readString_plain (h1 : u ≠ 0x22) (h2 : ¬u < 0x20) (h3 : u ≠ 0x5C) :
    readString (u :: t) = (readString t).map (u :: ·) := by
  rw [readString.eq_def]
  simp only
  rw [if_neg h1, if_neg h2, if_neg h3]

theorem readString_unescape {e v : UInt16} (h : unescape e = some v) (he : e ≠ 0x75) :
    readString (0x5C :: e :: t) = (readString t).map (v :: ·) := by
  rw [readString.eq_def]
  simp only [if_true, h]
  rw [if_neg (by decide), if_neg (by decide), if_neg he]
  cases readString t
  case none   => rfl
  case some w => rfl

theorem readString_quoteUnit : readString (quoteUnit u ++ t) = (readString t).map (u :: ·) := by
  have hc {c : Char} (h : Utf16.char u = c) (h0 : c.toNat ≠ 0) : u = .ofNat c.toNat := by
    rw [← char_toNat h h0, UInt16.ofNat_toNat]
  unfold quoteUnit
  split
  case h_1 h => rw [hc h (by decide)]; exact readString_unescape rfl (by decide)
  case h_2 h => rw [hc h (by decide)]; exact readString_unescape rfl (by decide)
  case h_3 h => rw [hc h (by decide)]; exact readString_unescape rfl (by decide)
  case h_4 h => rw [hc h (by decide)]; exact readString_unescape rfl (by decide)
  case h_5 h => rw [hc h (by decide)]; exact readString_unescape rfl (by decide)
  case h_6 h => rw [hc h (by decide)]; exact readString_unescape rfl (by decide)
  case h_7 h => rw [hc h (by decide)]; exact readString_unescape rfl (by decide)
  case h_8 h1 h2 _ _ _ _ _ =>
    split
    case isTrue  => exact readString_escape
    case isFalse h =>
      refine readString_plain ?_ h ?_
      case refine_1 => rintro rfl; exact h1 rfl
      case refine_2 => rintro rfl; exact h2 rfl

-- What has been quoted is read up to the quotation mark.
theorem readString_quoteUnits : readString (quoteUnits s ++ [0x22]) = some s := by
  fun_induction quoteUnits s
  case case1 => rfl
  case case2 u h =>
    rw [readString_escape]
    rfl
  case case3 u h =>
    rw [readString_quoteUnit]
    rfl
  case case4 u v s h ih =>
    simp only [Bool.and_eq_true, isHigh, isLow, decide_eq_true_eq] at h
    obtain ⟨⟨hu, -⟩, hv, -⟩ := h
    have hp {w : UInt16} (hw : 0xD800 ≤ w) : w ≠ 0x22 ∧ ¬w < 0x20 ∧ w ≠ 0x5C := by
      refine ⟨?_, ?_, ?_⟩
      case refine_1 => rintro rfl; exact absurd hw (by decide)
      case refine_2 => intro h; exact absurd (UInt16.lt_of_le_of_lt hw h) (by decide)
      case refine_3 => rintro rfl; exact absurd hw (by decide)
    obtain ⟨h1, h2, h3⟩ := hp hu
    obtain ⟨k1, k2, k3⟩ := hp (UInt16.le_trans (by decide) hv)
    rw [List.cons_append, List.cons_append, readString_plain h1 h2 h3, readString_plain k1 k2 k3]
    rw [ih]
    rfl
  case case5 u v s h ih =>
    rw [List.append_assoc]
    split
    case isTrue  => rw [readString_escape, ih]; rfl
    case isFalse => rw [readString_quoteUnit, ih]; rfl

-- What is between quotation marks stays where it is.
theorem trim_quote (s : Utf16) : (quote s).trim = quote s := by
  refine Text.Stripped.eq ⟨⟨[], [], by simp, by simp, by simp⟩, ?_, ?_⟩
  case refine_1 =>
    intro u hu
    obtain rfl : 0x22 = u := by simpa [quote, Utf16.ofText] using hu
    decide
  case refine_2 =>
    intro u hu
    rw [quote, List.getLast?_append_of_ne_nil _ (by simp [Utf16.ofText])] at hu
    obtain rfl : 0x22 = u := by simpa [Utf16.ofText] using hu
    decide

theorem parse_quote (h : ¬valueTooLong s) : parseValueLiteral (quote s) = .ok (.string s) := by
  have hq : quote s = 0x22 :: (quoteUnits s ++ [0x22]) := rfl
  unfold parseValueLiteral
  rw [trim_quote, hq]
  simp only [List.head?_cons, List.tail_cons, readString_quoteUnits, if_true, reduceCtorEq]
  rw [if_neg id, if_neg h]

theorem parse_string (h : ¬valueTooLong s) :
    parseValueLiteral (formatValueLiteral (.string s)) = .ok (.string s) := by
  rw [formatValueLiteral]
  split
  case h_1 v hv =>
    split
    case isTrue he  => rw [hv, he]
    case isFalse he => exact parse_quote h
  case h_2 => exact parse_quote h

-- The characters that numbers are written with.
def IsNumberChar (c : Char) : Prop :=
  c.isDigit ∨ c ∈ ['.', 'e', 'E', '+', '-']

theorem IsNumberChar.toNat_lt {c : Char} (h : IsNumberChar c) :
    c.toNat < 128 ∧ 0x20 < c.toNat ∧ c ≠ '"' ∧ c ≠ 't' ∧ c ≠ 'f' ∧ c ≠ 'n' := by
  obtain h | h := h
  case inl =>
    obtain ⟨hl, hu⟩ := Char.isDigit_iff_toNat.mp h
    refine ⟨hu.trans_lt (by decide), lt_of_lt_of_le (by decide) hl, ?_, ?_, ?_, ?_⟩
    all_goals rintro rfl; cases h
  case inr =>
    simp only [List.mem_cons, List.not_mem_nil, or_false] at h
    obtain rfl | rfl | rfl | rfl | rfl := h
    all_goals decide

variable {l : List Char} {q r : ℚ}

theorem isNumberChar_of_digits (h : Text.Digits l) : ∀ c ∈ l, IsNumberChar c :=
  fun c hc => .inl (h c hc)

theorem isNumberChar_of_spelled (h : Binary64.Spelled l q) : ∀ c ∈ l, IsNumberChar c := by
  obtain ⟨whole, point, part, exp, e, rfl, hw, -, hp, hd, he, -⟩ := h
  simp only [List.forall_mem_append]
  refine ⟨isNumberChar_of_digits hw, ?_, isNumberChar_of_digits hd, ?_⟩
  case refine_1 =>
    obtain ⟨rfl, -⟩ | ⟨rfl, -⟩ := hp
    case inl => simp
    case inr => simp [IsNumberChar]
  case refine_2 =>
    obtain rfl | ⟨e, hm, sign, digits, rfl, hs, -, hd⟩ := he
    case inl => simp
    case inr =>
      rw [List.forall_mem_cons, List.forall_mem_append]
      refine ⟨.inr ?_, ?_, isNumberChar_of_digits hd⟩
      case refine_1 =>
        simp only [List.mem_cons, List.not_mem_nil, or_false] at hm
        obtain rfl | rfl := hm
        all_goals decide
      case refine_2 =>
        obtain rfl | rfl | rfl := hs
        case inl     => simp
        case inr.inl => simp [IsNumberChar]
        case inr.inr => simp [IsNumberChar]

theorem isJsonNumber_of_spelled (h : Binary64.Spelled l q) {sign : List Char}
    (hs : sign = [] ∨ sign = ['-']) : isJsonNumber (sign ++ l) := by
  obtain ⟨whole, point, part, exp, e, rfl, hw, hlead, hp, hd, he, hexp, -⟩ := h
  have hex : isJsonExponent exp := Text.exponent_isSome.mpr he
  have hl : (if (sign ++ (whole ++ (point ++ (part ++ exp)))).head? = some '-' then
      (sign ++ (whole ++ (point ++ (part ++ exp)))).tail
      else sign ++ (whole ++ (point ++ (part ++ exp)))) = whole ++ (point ++ (part ++ exp)) := by
    obtain rfl | rfl := hs
    case inl =>
      have hu : Text.Unsigned (whole ++ (point ++ (part ++ exp))) := by
        obtain rfl | ⟨c, m, rfl, -⟩ := hlead
        case inl => simp [Text.Unsigned]
        case inr =>
          intro d hc
          obtain rfl : c = d := by simpa using hc
          exact Text.digits_unsigned hw c rfl
      exact if_neg fun h => (hu '-' h).2 rfl
    case inr => rfl
  have hr : ∀ c ∈ (point ++ (part ++ exp)).head?, ¬c.isDigit := by
    obtain ⟨rfl, rfl⟩ | ⟨rfl, -⟩ := hp
    case inl => exact fun c hc => (Text.exponent_head he c hc).1
    case inr =>
      intro c hc
      obtain rfl : '.' = c := by simpa using hc
      decide
  unfold isJsonNumber
  rw [hl]
  simp only [Text.span_digits hw hr]
  have hlead' : whole = ['0'] || whole.head?.any (· ≠ '0') := by
    obtain rfl | ⟨c, m, rfl, hc⟩ := hlead
    case inl => rfl
    case inr => simp [hc]
  rw [hlead', Bool.true_and]
  obtain ⟨rfl, rfl⟩ | ⟨rfl, hne⟩ := hp
  case inl =>
    simp only [List.nil_append]
    split
    case h_1 x rest => exact absurd rfl (Text.exponent_head he '.' rfl).2
    case h_2 => exact hex
  case inr =>
    have hx : ∀ c ∈ exp.head?, ¬c.isDigit := fun c hc => (Text.exponent_head he c hc).1
    simp only [List.cons_append, List.nil_append, Text.span_digits hd hx, hex, Bool.and_true]
    exact decide_eq_true hne

theorem char_ofText (h : ∀ c ∈ l, c.toNat < 128) : (Utf16.ofText l).map Utf16.char = l := by
  rw [Utf16.ofText, List.map_map]
  refine (List.map_congr_left fun c hc => ?_).trans (List.map_id l)
  have hn : (UInt16.ofNat c.toNat).toNat = c.toNat :=
    UInt16.toNat_ofNat_of_lt' ((h c hc).trans (by decide))
  rw [Function.comp_apply, Utf16.char, hn, Char.ofNat_toNat, id_eq]

theorem jsNumber_eq (hq : Text.decimal l = some q) (hr : Binary64.nearest q = some r)
    (hz : ¬(r = 0 ∧ l.head? = some '-')) :
    jsNumber l = some (.finite r (Binary64.representable_of_nearest hr)) := by
  unfold jsNumber
  rw [hq]
  simp only
  split
  case h_1 h => cases hr.symm.trans h
  case h_2 r' h =>
    obtain rfl : r = r' := Option.some.inj (hr.symm.trans h)
    rw [if_neg hz]

theorem parse_number (h : Binary64.Representable q) :
    parseValueLiteral (formatValueLiteral (.number (.finite q h))) =
      .ok (.number (.finite q h)) := by
  obtain ⟨sign, l, r, ht, hs, hl, hr⟩ := Binary64.text_spelled h
  have hsign : sign = [] ∨ sign = ['-'] := hs.imp_right And.left
  have hc : ∀ c ∈ Binary64.text q, IsNumberChar c := by
    rw [ht, List.forall_mem_append]
    refine ⟨?_, isNumberChar_of_spelled hl⟩
    obtain rfl | rfl := hsign
    case inl => simp
    case inr => simp [IsNumberChar]
  have hm : (Utf16.ofText (Binary64.text q)).map Utf16.char = Binary64.text q :=
    char_ofText fun c h => (hc c h).toNat_lt.1
  have hnot {m : List Char} {c : Char} (hm' : (Utf16.ofText m).map Utf16.char = m) (hmem : c ∈ m)
      (hne : ¬IsNumberChar c) : Utf16.ofText (Binary64.text q) ≠ .ofText m := by
    intro he
    have he := congrArg (List.map Utf16.char) he
    rw [hm, hm'] at he
    exact hne (hc c (he ▸ hmem))
  have htrim : (Utf16.ofText (Binary64.text q)).trim = .ofText (Binary64.text q) := by
    refine Text.strip_eq_self fun u hu => ?_
    have hcu := hc _ (hm ▸ List.mem_map_of_mem hu)
    obtain ⟨h1, h2, _⟩ := hcu.toNat_lt
    simp only [isJsSpace, Bool.or_eq_true, Bool.and_eq_true, decide_eq_true_eq, List.mem_cons,
      List.not_mem_nil, or_false]
    omega
  have hhead : (Utf16.ofText (Binary64.text q)).head? ≠ some 0x22 := by
    intro hh
    have hh := congrArg (Option.map Utf16.char) hh
    rw [← List.head?_map, hm] at hh
    obtain ⟨_, _, h, _⟩ := (hc _ (List.mem_of_mem_head? hh)).toNat_lt
    exact h rfl
  have hne : Utf16.ofText (Binary64.text q) ≠ [] := by
    intro he
    rw [he, List.map_nil] at hm
    have hd := hl.decimal hsign
    rw [← ht, ← hm] at hd
    cases hd
  have hd := hl.decimal hsign
  rw [← ht] at hd
  have hnear : Binary64.nearest ((if sign = ['-'] then -1 else 1) * r) = some q := by
    rw [Binary64.nearest, hr, if_pos h.left]
  have hz : ¬(q = 0 ∧ (Binary64.text q).head? = some '-') := by
    rintro ⟨rfl, h⟩
    cases h
  have hj := isJsonNumber_of_spelled hl hsign
  rw [← ht] at hj
  unfold parseValueLiteral
  rw [formatValueLiteral, JsNumber.text, htrim]
  simp only [hne, hhead, if_false, hm, hj, if_true, jsNumber_eq hd hnear hz]
  rw [if_neg (hnot (c := 't') rfl (by decide) fun h => h.toNat_lt.2.2.2.1 rfl)]
  rw [if_neg (hnot (c := 'f') rfl (by decide) fun h => h.toNat_lt.2.2.2.2.1 rfl)]
  rw [if_neg (hnot (c := 'n') rfl (by decide) fun h => h.toNat_lt.2.2.2.2.2 rfl)]

-- Whatever has been written is read as it, but for the negative zero.
theorem parse_format {v : JsonScalar} (hv : v ≠ .number .negativeZero)
    (hs : ∀ s, v = .string s → s.codePoints ≤ 64) :
    parseValueLiteral (formatValueLiteral v) = .ok v := by
  cases v
  case bool b => cases b <;> rfl
  case number n =>
    cases n
    case negativeZero => exact absurd rfl hv
    case finite q h   => exact parse_number h
  case string s =>
    have h := hs s rfl
    exact parse_string fun hl => (of_decide_eq_true hl).not_ge h
  case null => rfl

end Literals

-- The texts of positions and of values are read as what they have been written for, but for the
-- zero with a sign.
theorem pick_texts_read :
    (∀ (n : ℕ) (set : List ℕ), 1 ≤ n → n ≤ 1000 → (∀ p ∈ set, 1 ≤ p ∧ p ≤ n) →
      utf16Length (formatPositions set).toList ≤ 4096 ∧
        parsePositions (formatPositions set) n = .ok ((List.range' 1 n).filter (· ∈ set))) ∧
    (∀ (text : String) (base n : ℕ) (set : List ℕ), parsePositions text base = .ok set →
      1 ≤ n → n ≤ 1000 → parsePositions (trimPositionsForLength text base n) n =
        .ok (if set = List.range' 1 base then List.range' 1 n else set.filter (· ≤ n))) ∧
    ∀ v : JsonScalar, v ≠ .number .negativeZero → (∀ s, v = .string s → s.codePoints ≤ 64) →
      parseValueLiteral (formatValueLiteral v) = .ok v :=
  ⟨fun _ _ h1 hn hs => parse_formatPositions h1 hn hs,
    fun _ _ _ _ h h1 hn => parse_trimPositions h h1 hn, fun _ => parse_format⟩

-- The sign of a zero is not written.
theorem negativeZero_lost :
    ¬∀ v : JsonScalar, (∀ s, v = .string s → s.codePoints ≤ 64) →
      parseValueLiteral (formatValueLiteral v) = .ok v := by
  intro h
  have h := h (.number .negativeZero) (by simp)
  have hz : Binary64.Representable 0 := ⟨by norm_num, 0, 0, by decide, by decide, by simp⟩
  have he : formatValueLiteral (.number .negativeZero) =
      formatValueLiteral (.number (.finite 0 hz)) := by
    rw [formatValueLiteral, formatValueLiteral, JsNumber.text, JsNumber.text, Binary64.text,
      if_pos rfl]
  rw [he, parse_number hz] at h
  cases h

end Ui
