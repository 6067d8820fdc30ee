import Handicap.Engine.Theorems.Cast
import Handicap.Engine.Theorems.Render
import Handicap.Ui.Cast
import Handicap.Ui.Theorems.Conditions

open Engine (Json TokenKind)
open Store (isWhiteSpace)

-- The editor and the engine cast the same texts, where both of them read the token the same way.
namespace Ui

section

variable {α : Type*} {p : α → Bool} {l m : List α}

-- What is stripped on both sides of the same text is the same.
theorem sides_unique {f f' m b b' : List α} (h : f ++ m ++ b = f' ++ m ++ b') (hf : ∀ a ∈ f, p a)
    (hf' : ∀ a ∈ f', p a) (hne : m ≠ []) (hm : ∀ a ∈ m.head?, ¬p a) : f = f' ∧ b = b' := by
  have ht {f b : List α} (hf : ∀ a ∈ f, p a) : (f ++ m ++ b).takeWhile p = f := by
    obtain ⟨a, m, rfl⟩ := List.exists_cons_of_ne_nil hne
    rw [List.append_assoc, List.takeWhile_append_of_pos hf, List.cons_append,
      List.takeWhile_cons_of_neg (hm a rfl), List.append_nil]
  obtain rfl : f = f' := by rw [← ht (b := b) hf, h, ht hf']
  exact ⟨rfl, by simpa using h⟩

end

open Regex in
theorem mem_trailingCastRe {first : Bool} {l m t : List Char} :
    (m, t) ∈ trailingCastRe.candidates first l ↔ ∃ before space,
      l = before ++ ':' :: (space ++ m) ∧ t = [] ∧ (∀ c ∈ space, isJsSpace c) ∧
        (∃ c word, m = c :: word ∧ c.isAlpha ∧ ∀ d ∈ word, d.isAlphanum) ∧
        (before = [] ∧ first ∨ ∃ c, before = [c] ∧ c ≠ '-') := by
  simp only [Pattern.mem_candidates, trailingCastRe, mem_seq, mem_alt, mem_start, mem_one, mem_many,
    mem_stop, decide_eq_true_eq]
  constructor
  case mp =>
    rintro ⟨_, _, _, _, ⟨before, _, _, hb, ⟨_, _, space, ⟨_, rfl, rfl, rfl⟩, ⟨rfl, hs⟩, rfl⟩, rfl⟩,
      ⟨_, _, word, ⟨c, hc, rfl, rfl⟩, ⟨rfl, hw⟩, rfl⟩, rfl, rfl, rfl⟩
    obtain ⟨hf, rfl, rfl⟩ | ⟨d, hd, rfl, rfl⟩ := hb
    case inl => exact ⟨[], space, by simp, rfl, hs, ⟨c, word, rfl, hc, hw⟩, .inl ⟨rfl, hf⟩⟩
    case inr => exact ⟨[d], space, by simp, rfl, hs, ⟨c, word, rfl, hc, hw⟩, .inr ⟨d, rfl, hd⟩⟩
  case mpr =>
    rintro ⟨before, space, rfl, rfl, hs, ⟨c, word, rfl, hc, hw⟩, hb⟩
    refine ⟨before ++ ':' :: space, c :: word, [], [], ⟨before, _, ':' :: space, ?_,
      ⟨[':'], _, space, ⟨':', rfl, rfl, rfl⟩, ⟨rfl, hs⟩, rfl⟩, rfl⟩,
      ⟨[c], word, word, ⟨c, hc, rfl, rfl⟩, ⟨by simp, hw⟩, rfl⟩, rfl, rfl, rfl⟩
    obtain ⟨rfl, hf⟩ | ⟨d, rfl, hd⟩ := hb
    case inl => exact .inl ⟨hf, rfl, rfl⟩
    case inr => exact .inr ⟨d, hd, rfl, rfl⟩

-- A word of letters and digits, which begins with a letter.
def IsWord (l : List Char) : Prop :=
  ∃ c word, l = c :: word ∧ c.isAlpha ∧ ∀ d ∈ word, d.isAlphanum

theorem IsWord.alphanum {l : List Char} (h : IsWord l) : ∀ c ∈ l, c.isAlphanum := by
  obtain ⟨c, word, rfl, hc, hw⟩ := h
  refine List.forall_mem_cons.mpr ⟨?_, hw⟩
  simp [Char.isAlphanum, hc]

theorem alphanum_range {c : Char} (h : c.isAlphanum) :
    48 ≤ c.toNat ∧ c.toNat ≤ 57 ∨ 65 ≤ c.toNat ∧ c.toNat ≤ 90 ∨ 97 ≤ c.toNat ∧ c.toNat ≤ 122 := by
  have h : (decide ('A'.val ≤ c.val ∧ c.val ≤ 'Z'.val) || ('a'.val ≤ c.val && c.val ≤ 'z'.val)) ||
      ('0'.val ≤ c.val && c.val ≤ '9'.val) := h
  simp only [Bool.or_eq_true, Bool.and_eq_true, decide_eq_true_eq, UInt32.le_iff_toNat_le] at h
  have hc : c.val.toNat = c.toNat := rfl
  have hupper : 'A'.val.toNat = 65 ∧ 'Z'.val.toNat = 90 := ⟨rfl, rfl⟩
  have hlower : 'a'.val.toNat = 97 ∧ 'z'.val.toNat = 122 := ⟨rfl, rfl⟩
  have hdigit : '0'.val.toNat = 48 ∧ '9'.val.toNat = 57 := ⟨rfl, rfl⟩
  simp only [hc, hupper, hlower, hdigit] at h
  omega

theorem alphanum_notSpace {c : Char} (h : c.isAlphanum) : ¬isAnySpace c := by
  have hr := alphanum_range h
  simp [isAnySpace, isJsSpace, isWhiteSpace]
  omega

theorem word_notSpace {word : List Char} (h : IsWord word) : ∀ c ∈ word, ¬isAnySpace c :=
  fun c hc => alphanum_notSpace (h.alphanum c hc)

theorem dropWhile_word {space word : List Char} (hs : ∀ c ∈ space, isJsSpace c) (hw : IsWord word) :
    (space ++ word).dropWhile isJsSpace = word := by
  rw [List.dropWhile_append_of_pos hs]
  obtain ⟨c, word, rfl, _⟩ := id hw
  have hc : ¬isJsSpace c := fun h => word_notSpace hw c List.mem_cons_self (isJsSpace_iff.mp h).1
  rw [List.dropWhile_cons_of_neg hc]

theorem colon_notSpace : ¬isAnySpace ':' := by
  decide

-- The last colon of a token, and the word after it.
theorem trailingCast_eq_some {inner : List Char} {keyword : String} :
    trailingCast inner = some keyword ↔ ∃ before space,
      inner = before ++ ':' :: (space ++ keyword.toList) ∧ (∀ c ∈ space, isJsSpace c) ∧
        IsWord keyword.toList ∧ before.getLast? ≠ some '-' := by
  -- Every match is the same word.
  have hsound {x : List Char × List Char} (h : trailingCastRe.search true inner = some x) :
      ∃ before space, inner = before ++ ':' :: (space ++ x.1) ∧ (∀ c ∈ space, isJsSpace c) ∧
        IsWord x.1 ∧ before.getLast? ≠ some '-' := by
    have ⟨pre, t, he, hx⟩ := Pattern.mem_of_search h
    obtain ⟨before, space, rfl, _, hs, hw, hb⟩ := mem_trailingCastRe.1 hx
    refine ⟨pre ++ before, space, by rw [he, List.append_assoc], hs, hw, ?_⟩
    obtain ⟨rfl, hf⟩ | ⟨c, rfl, hc⟩ := hb
    case inl =>
      obtain rfl : pre = [] := by simpa using hf
      simp
    case inr => simpa using hc
  have hword {space word : List Char} (hs : ∀ c ∈ space, isJsSpace c) (hw : IsWord word) :
      ':' ∉ space ++ word := by
    rw [List.mem_append]
    rintro (h | h)
    case inl => exact colon_notSpace (isJsSpace_iff.mp (hs _ h)).1
    case inr => exact absurd (hw.alphanum _ h) (by decide)
  unfold trailingCast Pattern.exec
  constructor
  case mp =>
    intro h
    simp only [Option.map_map, Option.map_eq_some_iff, Function.comp_apply] at h
    obtain ⟨x, hx, rfl⟩ := h
    rw [String.toList_ofList]
    exact hsound hx
  case mpr =>
    rintro ⟨before, space, rfl, hs, hw, hb⟩
    have hx : (trailingCastRe.search true (before ++ ':' :: (space ++ keyword.toList))).isSome := by
      cases before using List.reverseRecOn
      case nil =>
        refine @Pattern.search_isSome trailingCastRe true _ [] (keyword.toList, []) ?_
        exact mem_trailingCastRe.2 ⟨[], space, rfl, rfl, hs, hw, .inl ⟨rfl, rfl⟩⟩
      case append_singleton pre c _ =>
        have hc : c ≠ '-' := by simpa using hb
        rw [List.append_assoc]
        refine Pattern.search_isSome (x := (keyword.toList, [])) ?_
        exact mem_trailingCastRe.2 ⟨[c], space, rfl, rfl, hs, hw, .inr ⟨c, rfl, hc⟩⟩
    obtain ⟨x, hx⟩ := Option.isSome_iff_exists.mp hx
    have ⟨before', space', he, hs', hw', _⟩ := hsound hx
    have hu := Engine.rsplitOnce_eq_some.mpr ⟨he, hword hs' hw'⟩
    rw [Engine.rsplitOnce_eq_some.mpr ⟨rfl, hword hs hw⟩] at hu
    have hsame := (Prod.mk.inj (Option.some.inj hu)).2
    have hdrop := congrArg (List.dropWhile isJsSpace) hsame
    rw [dropWhile_word hs hw, dropWhile_word hs' hw'] at hdrop
    rw [hx, Option.map_some, Option.map_some, ← hdrop, String.ofList_toList]

-- A text without braces.
def NoBrace (l : List Char) : Prop :=
  ∀ c ∈ l, isNoBrace c

theorem noBrace_iff {l : List Char} : NoBrace l ↔ '{' ∉ l ∧ '}' ∉ l := by
  simp only [NoBrace, isNoBrace, ne_eq, Bool.and_eq_true, decide_eq_true_eq]
  constructor
  case mp  => exact fun h => ⟨fun hm => (h _ hm).1 rfl, fun hm => (h _ hm).2 rfl⟩
  case mpr => exact fun h c hc => ⟨fun he => h.1 (he ▸ hc), fun he => h.2 (he ▸ hc)⟩

section

variable {first : Bool} {i tail y : List Char}

theorem close_notSpace : ¬isJsSpace '}' := by
  decide

theorem takeWhile_spaces {c : Char} (hc : ¬isJsSpace c) :
    (i ++ c :: tail).takeWhile isJsSpace = i.takeWhile isJsSpace ∧
      (i ++ c :: tail).dropWhile isJsSpace = i.dropWhile isJsSpace ++ c :: tail := by
  induction i
  case nil => simp [hc]
  case cons d i ih =>
    by_cases hd : isJsSpace d
    case pos => simpa [hd] using ih
    case neg => simp [hd]

theorem flowBefore_head? :
    (flowToken.before.splits first ('{' :: '{' :: (i ++ '}' :: tail))).head? =
      some ('{' :: '{' :: i.takeWhile isJsSpace, i.dropWhile isJsSpace ++ '}' :: tail) := by
  have hl := @Regex.splits_literal first (i ++ '}' :: tail) ['{', '{']
  have ⟨ht, hd⟩ := @takeWhile_spaces i tail '}' close_notSpace
  simp only [List.cons_append, List.nil_append] at hl
  simp only [flowToken, Regex.splits, hl, List.flatMap_cons, List.flatMap_nil, List.append_nil,
    List.head?_map, Regex.manySplits_head?, ht, hd, Option.map_some, List.cons_append,
    List.nil_append]

theorem flowAfter_head? (hy : ∀ c ∈ y, isJsSpace c) :
    (flowToken.after.splits first (y ++ '}' :: '}' :: tail)).head? =
      some (y ++ ['}', '}'], tail) := by
  have ⟨ht, hd⟩ := @takeWhile_spaces y ('}' :: tail) '}' close_notSpace
  have hl (b : Bool) := @Regex.splits_literal b tail ['}', '}']
  simp only [List.cons_append, List.nil_append] at hl
  rw [flowToken, Regex.splits]
  refine Regex.head?_flatMap_of (Regex.manySplits_head? ..) ?_
  rw [ht, hd, List.takeWhile_eq_self_iff.mpr hy, List.dropWhile_eq_nil_iff.mpr hy, List.nil_append,
    hl]
  rfl

theorem flowAfter_nil (hy : NoBrace y) (hn : ¬∀ c ∈ y, isJsSpace c) :
    flowToken.after.splits first (y ++ '}' :: '}' :: tail) = [] := by
  refine List.eq_nil_iff_forall_not_mem.mpr fun x hx => ?_
  obtain ⟨m, t, _, hm, hl, _⟩ := Regex.mem_seq.mp (show (x.1, x.2) ∈ _ from hx)
  obtain ⟨he, hs⟩ := Regex.mem_many.mp hm
  obtain ⟨_, rfl⟩ := Regex.mem_literal.mp hl
  -- Both the white space and the text come before the first closing brace.
  have hc (l t : List Char) (hl : '}' ∉ l) : Text.cut ['}'] (l ++ '}' :: t) = some (l, t) :=
    Text.cut_one.mpr ⟨rfl, hl⟩
  have hcut := congrArg (Text.cut ['}']) he
  rw [List.cons_append, hc _ _ fun h => close_notSpace (hs _ h), hc _ _ (noBrace_iff.1 hy).2] at hcut
  obtain ⟨rfl, _⟩ := Prod.mk.inj (Option.some.inj hcut)
  exact hn hs

-- The text between the braces is what is left between the white space, for any pattern that goes on
-- after the braces.
theorem flowGroup_head? {after : Regex} {rest : List Char} (hi : NoBrace i)
    (hsome : ∀ y, (∀ c ∈ y, isJsSpace c) →
      (after.splits false (y ++ '}' :: '}' :: tail)).head? = some (y ++ ['}', '}'], rest))
    (hnone : ∀ y, NoBrace y → ¬(∀ c ∈ y, isJsSpace c) →
      after.splits false (y ++ '}' :: '}' :: tail) = []) :
    ((flowToken.group.splits false (i.dropWhile isJsSpace ++ '}' :: '}' :: tail)).flatMap fun n =>
      (after.splits false n.2).map fun k => (n.1, k.2)).head? =
        some (Text.strip isJsSpace i, rest) := by
  have hd : NoBrace (i.dropWhile isJsSpace) := fun c hc => hi c (List.dropWhile_subset _ hc)
  have h := @Regex.fewSplits_head? isNoBrace (i.dropWhile isJsSpace) _ isJsSpace
    (fun t => (after.splits false t).map Prod.snd) ('}' :: '}' :: tail) rest hd
    (fun y _ hs => by rw [List.head?_map, hsome y hs, Option.map_some])
    (fun y hy hs => by rw [hnone y (fun c hc => hd c (hy.subset hc)) hs, List.map_nil])
  simpa only [List.map_map, Function.comp_def, flowToken, Regex.splits, Text.strip] using h

theorem flowToken_head? (hi : NoBrace i) :
    (flowToken.candidates first ('{' :: '{' :: (i ++ '}' :: '}' :: tail))).head? =
      some (Text.strip isJsSpace i, tail) := by
  refine Regex.head?_flatMap_of flowBefore_head? ?_
  simp only [List.isEmpty_cons, Bool.and_false, Bool.false_and]
  exact flowGroup_head? hi (fun y => flowAfter_head?) fun y => flowAfter_nil

theorem pureFlow_head? (hi : NoBrace i) :
    (pureFlow.candidates true ('{' :: '{' :: (i ++ ['}', '}']))).head? =
      some (Text.strip isJsSpace i, []) := by
  refine Regex.head?_flatMap_of (a := ('{' :: '{' :: i.takeWhile isJsSpace,
    i.dropWhile isJsSpace ++ ['}', '}'])) ?_ ?_
  case refine_1 =>
    simp only [pureFlow, Pattern.whole, Regex.splits, if_true, List.flatMap_cons,
      List.flatMap_nil, List.append_nil, List.head?_map, List.isEmpty_nil, Bool.and_true,
      flowBefore_head?, Option.map_some, List.nil_append]
  case refine_2 =>
    simp only [List.isEmpty_cons, Bool.and_false, Bool.false_and]
    refine flowGroup_head? hi (fun y hy => ?_) fun y hy hs => ?_
    case refine_1 =>
      refine Regex.head?_flatMap_of (flowAfter_head? hy) ?_
      simp [Regex.splits]
    case refine_2 => simp [pureFlow, Pattern.whole, Regex.splits, flowAfter_nil hy hs]

theorem mem_flowToken {m t : List Char} (h : (m, t) ∈ flowToken.candidates first y) :
    ∃ i, y = '{' :: '{' :: (i ++ '}' :: '}' :: t) ∧ NoBrace i := by
  obtain ⟨_, _, _, _, hb, hg, ha⟩ := Pattern.mem_candidates.mp h
  obtain ⟨_, _, space, hl, hr, rfl⟩ := Regex.mem_seq.mp hb
  obtain ⟨rfl, rfl⟩ := Regex.mem_literal.mp hl
  obtain ⟨rfl, hs⟩ := Regex.mem_many.mp hr
  obtain ⟨rfl, hm⟩ := Regex.mem_few.mp hg
  obtain ⟨space', _, _, hr', hl', rfl⟩ := Regex.mem_seq.mp ha
  obtain ⟨rfl, hs'⟩ := Regex.mem_many.mp hr'
  obtain ⟨rfl, rfl⟩ := Regex.mem_literal.mp hl'
  refine ⟨space ++ (m ++ space'), by simp, ?_⟩
  have hspace {l : List Char} (hl : ∀ c ∈ l, isJsSpace c) : NoBrace l := by
    refine noBrace_iff.2 ⟨fun hm => ?_, fun hm => ?_⟩
    case refine_1 => exact absurd (hl _ hm) (by decide)
    case refine_2 => exact absurd (hl _ hm) (by decide)
  intro c hc
  simp only [List.mem_append] at hc
  exact hc.elim (hspace hs c) fun hc => hc.elim (hm c) (hspace hs' c)

theorem pureFlow_exec {l m : List Char} : pureFlow.exec l = some m ↔
    ∃ i, l = '{' :: '{' :: (i ++ ['}', '}']) ∧ NoBrace i ∧ Text.strip isJsSpace i = m := by
  rw [pureFlow, Pattern.exec, Pattern.search_whole, Option.map_eq_some_iff]
  constructor
  case mp =>
    rintro ⟨⟨m, t⟩, hx, rfl⟩
    obtain ⟨_, rfl, hm⟩ := Pattern.mem_whole (List.mem_of_mem_head? hx)
    obtain ⟨i, rfl, hi⟩ := mem_flowToken hm
    have hx := hx.symm.trans (pureFlow_head? hi)
    exact ⟨i, rfl, hi, (Prod.mk.inj (Option.some.inj hx)).1.symm⟩
  case mpr =>
    rintro ⟨i, rfl, hi, rfl⟩
    exact ⟨_, pureFlow_head? hi, rfl⟩

theorem mem_envToken {m t : List Char} (h : (m, t) ∈ envToken.candidates first y) :
    y = '$' :: '{' :: (m ++ '}' :: t) ∧ '}' ∉ m := by
  obtain ⟨_, _, _, _, hb, hg, ha⟩ := Pattern.mem_candidates.mp h
  obtain ⟨rfl, rfl⟩ := Regex.mem_literal.mp hb
  obtain ⟨rfl, hm⟩ := Regex.mem_many.mp hg
  obtain ⟨rfl, rfl⟩ := Regex.mem_literal.mp ha
  exact ⟨rfl, fun h => by simpa using hm _ h⟩

theorem envGroup_head? (hi : '}' ∉ i) :
    (envToken.group.splits first (i ++ '}' :: tail)).head? = some (i, '}' :: tail) := by
  have hp : ∀ c ∈ i, decide (c ≠ '}') = true := fun c hc => decide_eq_true fun h => hi (h ▸ hc)
  rw [envToken, Regex.splits, Regex.manySplits_head?, List.takeWhile_append_of_pos hp,
    List.dropWhile_append_of_pos hp]
  simp

theorem envToken_head? (hi : '}' ∉ i) :
    (envToken.candidates first ('$' :: '{' :: (i ++ '}' :: tail))).head? = some (i, tail) := by
  have hl := @Regex.splits_literal first (i ++ '}' :: tail) ['$', '{']
  have hr (b : Bool) := @Regex.splits_literal b tail ['}']
  simp only [List.cons_append, List.nil_append] at hl hr
  refine Regex.head?_flatMap_of (a := (['$', '{'], i ++ '}' :: tail)) (by rw [envToken, hl]; rfl) ?_
  refine Regex.head?_flatMap_of (envGroup_head? hi) ?_
  rw [envToken, hr]
  rfl

theorem pureEnv_head? (hi : '}' ∉ i) :
    (pureEnv.candidates true ('$' :: '{' :: (i ++ ['}']))).head? = some (i, []) := by
  have hl (b : Bool) := @Regex.splits_literal b (i ++ ['}']) ['$', '{']
  have hr (b : Bool) := @Regex.splits_literal b [] ['}']
  simp only [List.cons_append, List.nil_append] at hl hr
  refine Regex.head?_flatMap_of (a := (['$', '{'], i ++ ['}'])) ?_ ?_
  case refine_1 => simp [pureEnv, Pattern.whole, envToken, Regex.splits, hl]
  case refine_2 =>
    refine Regex.head?_flatMap_of (envGroup_head? hi) ?_
    simp [pureEnv, Pattern.whole, envToken, Regex.splits, hr]

theorem pureEnv_exec {l m : List Char} : pureEnv.exec l = some m ↔
    l = '$' :: '{' :: (m ++ ['}']) ∧ '}' ∉ m := by
  rw [pureEnv, Pattern.exec, Pattern.search_whole, Option.map_eq_some_iff]
  constructor
  case mp =>
    rintro ⟨⟨m, t⟩, hx, rfl⟩
    obtain ⟨_, rfl, hm⟩ := Pattern.mem_whole (List.mem_of_mem_head? hx)
    exact mem_envToken hm
  case mpr =>
    rintro ⟨rfl, hm⟩
    exact ⟨_, pureEnv_head? hm, rfl⟩

end

theorem keyword_word (cast : Engine.Cast) : IsWord cast.keyword.toList := by
  cases cast
  case str  => exact ⟨'s', ['t', 'r'], rfl, by simp⟩
  case num  => exact ⟨'n', ['u', 'm'], rfl, by simp⟩
  case bool => exact ⟨'b', ['o', 'o', 'l'], rfl, by simp⟩
  case json => exact ⟨'j', ['s', 'o', 'n'], rfl, by simp⟩

theorem mem_castKeywords {keyword : String} :
    keyword ∈ castKeywords ↔ ∃ cast : Engine.Cast, keyword = cast.keyword := by
  constructor
  case mp =>
    simp only [castKeywords, List.mem_cons, List.not_mem_nil, or_false]
    rintro (rfl | rfl | rfl | rfl)
    case inl             => exact ⟨.str, rfl⟩
    case inr.inl         => exact ⟨.num, rfl⟩
    case inr.inr.inl     => exact ⟨.bool, rfl⟩
    case inr.inr.inr     => exact ⟨.json, rfl⟩
  case mpr =>
    rintro ⟨cast, rfl⟩
    cases cast <;> simp [castKeywords, Engine.Cast.keyword]

def wholeToken : TokenKind → Pattern
  | .flow => pureFlow
  | .env  => pureEnv

-- A text that is one token with a cast, and nothing else but white space of either kind.
structure Leaf where
  kind    : TokenKind
  front   : List Char
  name    : List Char
  keyword : List Char
  back    : List Char

namespace Leaf

variable (l : Leaf)

def inner : List Char :=
  l.name ++ ':' :: l.keyword

def token : List Char :=
  l.kind.opening ++ l.inner ++ l.kind.closing

def text : String :=
  .ofList (l.front ++ l.token ++ l.back)

-- What is beside the token and its keyword.
def pad : List Char :=
  l.front ++ l.keyword ++ l.back

structure Casts (cast : Engine.Cast) : Prop where
  front   : ∀ c ∈ l.front, isAnySpace c
  back    : ∀ c ∈ l.back, isAnySpace c
  keyword : Text.strip isAnySpace l.keyword = cast.keyword.toList

-- What the editor reads as one token with a cast.
def Plain : Prop :=
  match l.kind with
  | .flow => NoBrace l.inner ∧ l.name.getLast? ≠ some '-'
  | .env  =>
    '}' ∉ l.inner ∧ l.name.getLast? ≠ some '-' ∧ ∀ c ∈ l.keyword.getLast?, ¬isAnySpace c

-- What the editor sees of the text between the braces.
def seen : List Char :=
  match l.kind with
  | .flow => Text.strip isJsSpace l.inner
  | .env  => l.inner

-- The token that the engine renders.
def bare : String :=
  .ofList (l.kind.opening ++ Text.strip isWhiteSpace l.name ++ l.kind.closing)

variable {l : Leaf} {cast : Engine.Cast}

theorem token_ne : l.token ≠ [] := by
  unfold token
  cases l.kind <;> simp [TokenKind.opening]

theorem token_head : ∀ c ∈ l.token.head?, ¬isAnySpace c := by
  unfold token
  cases l.kind <;> simp [TokenKind.opening] <;> decide

theorem token_last : ∀ c ∈ l.token.getLast?, ¬isAnySpace c := by
  unfold token
  cases l.kind <;> simp [TokenKind.closing] <;> decide

section

variable {space : Char → Bool} {k : Char} (hs : ∀ c, space c ↔ isAnySpace c ∧ c ≠ k)

include hs

-- A text is stripped to its token where what is not white space is not beside it.
theorem strip_text (h : l.Casts cast) :
    Text.strip space l.text.toList = l.token ↔ k ∉ l.front ++ l.back := by
  rw [text, String.toList_ofList]
  constructor
  case mp =>
    intro hstrip
    obtain ⟨front, back, he, hf, hb⟩ := (hstrip ▸ Text.strip_stripped space _).sides
    have hany {m : List Char} (hm : ∀ c ∈ m, space c) : ∀ c ∈ m, isAnySpace c :=
      fun c hc => ((hs c).mp (hm c hc)).1
    have ⟨h₁, h₂⟩ := sides_unique he h.front (hany hf) token_ne token_head
    rw [h₁, h₂, List.mem_append]
    rintro (hk | hk)
    case inl => exact ((hs k).mp (hf k hk)).2 rfl
    case inr => exact ((hs k).mp (hb k hk)).2 rfl
  case mpr =>
    intro hk
    rw [List.mem_append, not_or] at hk
    refine Text.Stripped.eq ⟨⟨l.front, l.back, rfl, fun c hc => ?_, fun c hc => ?_⟩,
      fun c hc hp => ?_, fun c hc hp => ?_⟩
    case refine_1 => exact (hs c).mpr ⟨h.front c hc, fun he => hk.1 (he ▸ hc)⟩
    case refine_2 => exact (hs c).mpr ⟨h.back c hc, fun he => hk.2 (he ▸ hc)⟩
    case refine_3 => exact token_head c hc ((hs c).mp hp).1
    case refine_4 => exact token_last c hc ((hs c).mp hp).1

theorem strip_keyword {keyword : List Char} (hk : isAnySpace k) :
    Text.strip space keyword = cast.keyword.toList ↔
      Text.strip isAnySpace keyword = cast.keyword.toList ∧ k ∉ keyword := by
  refine Text.strip_meets hs (P := (· = cast.keyword.toList)) ?_ hk
  rintro _ rfl
  refine ⟨?_, word_notSpace (keyword_word cast)⟩
  obtain ⟨c, word, h, _⟩ := keyword_word cast
  simp [h]

end

theorem colon_keyword (h : l.Casts cast) : ':' ∉ l.keyword := by
  intro hm
  cases Text.mem_strip_or isAnySpace _ hm
  case inl hm =>
    rw [h.keyword] at hm
    exact absurd ((keyword_word cast).alphanum _ hm) (by decide)
  case inr hc => exact colon_notSpace hc

theorem split_inner (h : l.Casts cast) :
    Engine.rsplitOnce ':' l.inner = some (l.name, l.keyword) :=
  Engine.rsplitOnce_eq_some.mpr ⟨rfl, colon_keyword h⟩

theorem strip_any (h : l.Casts cast) : Text.strip isAnySpace l.text.toList = l.token := by
  rw [text, String.toList_ofList]
  exact Text.Stripped.eq ⟨⟨l.front, l.back, rfl, h.front, h.back⟩, token_head, token_last⟩

-- A text is a token with a cast in one way only.
theorem eq_of_text {l' : Leaf} {cast' : Engine.Cast} (h : l.Casts cast) (h' : l'.Casts cast')
    (he : l.text = l'.text) : l = l' ∧ cast = cast' := by
  have ht : l.token = l'.token := by rw [← strip_any h, ← strip_any h', he]
  have hkind : l.kind = l'.kind := by
    unfold token at ht
    cases hk : l.kind <;> cases hk' : l'.kind <;> simp [hk, hk', TokenKind.opening] at ht ⊢
  have hinner : l.inner = l'.inner := by
    unfold token at ht
    rw [hkind] at ht
    simpa using ht
  obtain ⟨hname, hkeyword⟩ : l.name = l'.name ∧ l.keyword = l'.keyword := by
    have hs := split_inner h
    rw [hinner, split_inner h'] at hs
    simpa [eq_comm] using hs
  obtain ⟨hfront, hback⟩ : l.front = l'.front ∧ l.back = l'.back := by
    have he := congrArg String.toList he
    rw [text, text, String.toList_ofList, String.toList_ofList, ← ht] at he
    exact sides_unique he h.front h'.front token_ne token_head
  have hcast : cast.keyword = cast'.keyword := by
    have hk := h.keyword
    rw [hkeyword, h'.keyword] at hk
    exact (String.toList_inj.mp hk).symm
  refine ⟨?_, Engine.Cast.keyword_inj hcast⟩
  obtain ⟨kind, front, name, keyword, back⟩ := l
  obtain ⟨kind', front', name', keyword', back'⟩ := l'
  cases hkind
  cases hname
  cases hkeyword
  cases hfront
  cases hback
  rfl

theorem pad_iff {k : Char} : k ∉ l.pad ↔ k ∉ l.front ++ l.back ∧ k ∉ l.keyword := by
  simp only [pad, List.mem_append]
  tauto

end Leaf

theorem anySpace_byteOrderMark : isAnySpace byteOrderMark := by
  decide

theorem anySpace_nextLine : isAnySpace nextLine := by
  decide

-- What the engine casts, in terms of the text.
theorem parseCastLeaf_iff {s token : String} {cast : Engine.Cast} :
    Engine.parseCastLeaf s = some (token, cast) ↔ ∃ l : Leaf, l.Casts cast ∧ l.text = s ∧
      byteOrderMark ∉ l.pad ∧ l.kind.Sole l.inner ∧ token = l.bare := by
  rw [Engine.parseCastLeaf_eq_some]
  constructor
  case mp =>
    rintro ⟨kind, name, keyword, hs, hc, hsole, hk, rfl⟩
    obtain ⟨front, back, he, hf, hb⟩ := (Text.strip_stripped isWhiteSpace s.toList).sides
    have hany {m : List Char} (hm : ∀ c ∈ m, isWhiteSpace c) : ∀ c ∈ m, isAnySpace c :=
      fun c hc => (isWhiteSpace_iff.mp (hm c hc)).1
    have ⟨hk, hmark⟩ :=
      (Leaf.strip_keyword (fun _ => isWhiteSpace_iff) anySpace_byteOrderMark).mp hk
    let l : Leaf := ⟨kind, front, name, keyword, back⟩
    have hcasts : l.Casts cast := ⟨hany hf, hany hb, hk⟩
    have htext : l.text = s := by
      rw [hs] at he
      rw [← String.toList_inj, he, Leaf.text, String.toList_ofList]
      rfl
    refine ⟨l, hcasts, htext, Leaf.pad_iff.mpr ⟨?_, hmark⟩, hsole, rfl⟩
    refine (Leaf.strip_text (fun _ => isWhiteSpace_iff) hcasts).mp ?_
    rw [htext, hs]
    rfl
  case mpr =>
    rintro ⟨l, hcasts, rfl, hpad, hsole, rfl⟩
    have ⟨hsides, hmark⟩ := Leaf.pad_iff.mp hpad
    refine ⟨l.kind, l.name, l.keyword, ?_, Leaf.colon_keyword hcasts, hsole, ?_, rfl⟩
    case refine_1 => exact (Leaf.strip_text (fun _ => isWhiteSpace_iff) hcasts).mpr hsides
    case refine_2 =>
      exact (Leaf.strip_keyword (fun _ => isWhiteSpace_iff) anySpace_byteOrderMark).mpr
        ⟨hcasts.keyword, hmark⟩

-- A text is a token that the editor casts on its own.
structure Standalone (s : String) (kind : TokenKind) (inner : List Char) (keyword : String) :
    Prop where
  valid : jsonBodyCastErrors (.string s) = []
  token : (wholeToken kind).exec (jsTrim s).toList = some inner
  cast  : trailingCast inner = some keyword
  known : keyword ∈ castKeywords

namespace Leaf

variable {l : Leaf} {cast : Engine.Cast}

theorem strip_around {p : Char → Bool} {c : Char} {name space word back : List Char} (hc : ¬p c)
    (hb : ∀ c ∈ back, p c) (hw : IsWord word) (hp : ∀ c ∈ word, ¬p c) :
    Text.strip p (name ++ c :: (space ++ word ++ back)) =
      name.dropWhile p ++ c :: (space ++ word) := by
  refine Text.Stripped.eq ⟨⟨name.takeWhile p, back, ?_, fun _ => List.mem_takeWhile_imp, hb⟩, ?_, ?_⟩
  case refine_1 =>
    rw [← List.append_assoc (name.takeWhile p), List.takeWhile_append_dropWhile]
    simp
  case refine_2 =>
    intro d hd
    cases hn : name.dropWhile p
    case nil =>
      obtain rfl : c = d := by simpa [hn] using hd
      exact hc
    case cons e rest =>
      obtain rfl : e = d := by simpa [hn] using hd
      have h := List.head?_dropWhile_not p name
      simpa [hn] using h
  case refine_3 =>
    intro d hd
    obtain ⟨a, word, rfl, _⟩ := hw
    refine hp d (List.mem_of_mem_getLast? ?_)
    rw [List.getLast?_append_of_ne_nil _ (List.cons_ne_nil _ _), ← List.cons_append,
      List.getLast?_append_of_ne_nil _ (List.cons_ne_nil _ _)] at hd
    exact hd

theorem getLast?_dropWhile {p : Char → Bool} {name : List Char} {c : Char}
    (h : name.getLast? ≠ some c) : (name.dropWhile p).getLast? ≠ some c := by
  intro hc
  rw [← List.takeWhile_append_dropWhile (p := p) (l := name), List.getLast?_append, hc] at h
  exact h rfl

-- The keyword of a token with white space that the editor knows.
theorem keyword_sides (h : l.Casts cast) (hn : nextLine ∉ l.keyword) : ∃ space back,
    l.keyword = space ++ cast.keyword.toList ++ back ∧ (∀ c ∈ space, isJsSpace c) ∧
      ∀ c ∈ back, isJsSpace c := by
  have hk := (strip_keyword (fun _ => isJsSpace_iff) anySpace_nextLine).mpr ⟨h.keyword, hn⟩
  exact (hk ▸ Text.strip_stripped isJsSpace l.keyword).sides

theorem word_notJsSpace {word : List Char} (h : IsWord word) : ∀ c ∈ word, ¬isJsSpace c :=
  fun c hc hs => word_notSpace h c hc (isJsSpace_iff.mp hs).1

theorem seen_eq (h : l.Casts cast) (hn : nextLine ∉ l.keyword) (hp : l.Plain) :
    ∃ name space, l.seen = name ++ ':' :: (space ++ cast.keyword.toList) ∧
      (∀ c ∈ space, isJsSpace c) ∧ name.getLast? ≠ some '-' ∧
      Text.strip isJsSpace name = Text.strip isJsSpace l.name := by
  obtain ⟨space, back, hk, hs, hb⟩ := keyword_sides h hn
  have hw := keyword_word cast
  unfold Plain at hp
  unfold seen
  cases hkind : l.kind
  case flow =>
    simp only [hkind] at hp ⊢
    refine ⟨l.name.dropWhile isJsSpace, space, ?_, hs, getLast?_dropWhile hp.2, ?_⟩
    case refine_1 =>
      rw [inner, hk]
      exact strip_around (fun h => colon_notSpace (isJsSpace_iff.mp h).1) hb hw (word_notJsSpace hw)
    case refine_2 => rw [Text.strip, Text.strip, List.dropWhile_idempotent]
  case env =>
    simp only [hkind] at hp ⊢
    obtain ⟨_, hname, hlast⟩ := hp
    obtain rfl : back = [] := by
      by_contra hne
      have hm := List.getLast?_eq_getLast_of_ne_nil hne
      refine hlast _ ?_ (isJsSpace_iff.mp (hb _ (List.getLast_mem hne))).1
      rw [hk, List.getLast?_append_of_ne_nil _ hne]
      exact hm
    rw [List.append_nil] at hk
    exact ⟨l.name, space, by rw [inner, hk], hs, hname, rfl⟩

theorem seen_cast (h : l.Casts cast) (hn : nextLine ∉ l.keyword) (hp : l.Plain) :
    trailingCast l.seen = some cast.keyword := by
  obtain ⟨name, space, he, hs, hl, _⟩ := seen_eq h hn hp
  exact trailingCast_eq_some.2 ⟨name, space, he, hs, keyword_word cast, hl⟩

theorem castKeywords_cast : cast.keyword ∈ castKeywords :=
  mem_castKeywords.2 ⟨cast, rfl⟩

theorem splitFlowToken_seen (h : l.Casts cast) (hn : nextLine ∉ l.keyword) (hp : l.Plain) :
    splitFlowToken l.seen = (.ofList (Text.strip isJsSpace l.name), some cast.keyword) := by
  have hc := seen_cast h hn hp
  obtain ⟨name, space, he, hs, _, hname⟩ := seen_eq h hn hp
  have hcolon : ':' ∉ space ++ cast.keyword.toList := by
    rw [List.mem_append]
    rintro (hm | hm)
    case inl => exact colon_notSpace (isJsSpace_iff.mp (hs _ hm)).1
    case inr => exact absurd ((keyword_word cast).alphanum _ hm) (by decide)
  have hr := Engine.rsplitOnce_eq_some.mpr ⟨he, hcolon⟩
  have hf : (some cast.keyword).filter (· ∈ castKeywords) = some cast.keyword := by
    rw [Option.filter_some, if_pos (decide_eq_true castKeywords_cast)]
  rw [splitFlowToken, hc, hf]
  simp [hr, hname]

theorem text_ne : l.text.toList ≠ [] := by
  rw [text, String.toList_ofList]
  intro h
  exact token_ne (List.append_eq_nil_iff.mp (List.append_eq_nil_iff.mp h).1).2

theorem notMem_spaces {m : List Char} {c : Char} (hm : ∀ d ∈ m, isAnySpace d) (hc : ¬isAnySpace c) :
    c ∉ m :=
  fun h => hc (hm c h)

theorem flow_begins (first : Bool) (t : List Char) :
    ∀ x ∈ flowToken.candidates first t, t.head? = some '{' := by
  intro x hx
  obtain ⟨_, rfl, _⟩ := mem_flowToken (show (x.1, x.2) ∈ _ from hx)
  rfl

theorem env_begins (first : Bool) (t : List Char) :
    ∀ x ∈ envToken.candidates first t, t.head? = some '$' := by
  intro x hx
  obtain ⟨rfl, _⟩ := mem_envToken (show (x.1, x.2) ∈ _ from hx)
  rfl

theorem flow_without {first : Bool} {t : List Char} (h : t.count '}' < 2) :
    flowToken.search first t = none := by
  refine Option.eq_none_iff_forall_ne_some.mpr fun x hx => ?_
  obtain ⟨pre, t, rfl, hm⟩ := Pattern.mem_of_search hx
  obtain ⟨i, rfl, _⟩ := mem_flowToken (show (x.1, x.2) ∈ _ from hm)
  simp only [List.count_append, List.count_cons] at h
  simp at h
  omega

theorem env_without {first : Bool} {t : List Char} (h : '{' ∉ t) :
    envToken.search first t = none := by
  refine Option.eq_none_iff_forall_ne_some.mpr fun x hx => ?_
  obtain ⟨pre, t, rfl, hm⟩ := Pattern.mem_of_search hx
  obtain ⟨rfl, _⟩ := mem_envToken (show (x.1, x.2) ∈ _ from hm)
  simp at h

-- The tokens that the editor finds in the text.
theorem findAll_flow (h : l.Casts cast) (hp : l.Plain) (hkind : l.kind = .flow) :
    flowToken.findAll l.text.toList = [l.seen] ∧ envToken.findAll l.text.toList = [] := by
  simp only [Plain, hkind] at hp
  have ⟨hi, _⟩ := hp
  have ht : l.text.toList = l.front ++ '{' :: '{' :: (l.inner ++ '}' :: '}' :: l.back) := by
    simp [text, token, hkind, TokenKind.opening, TokenKind.closing]
  have hfront := notMem_spaces (c := '{') h.front (by decide)
  have hback := notMem_spaces (c := '{') h.back (by decide)
  refine ⟨Pattern.findAll_one (t := l.back) ?_ ?_ text_ne, Pattern.findAll_nil ?_⟩
  case refine_1 =>
    rw [ht, Pattern.search_past flow_begins hfront, seen, hkind]
    exact Pattern.search_here (flowToken_head? hi)
  case refine_2 =>
    refine flow_without ?_
    rw [List.count_eq_zero_of_not_mem (notMem_spaces h.back (by decide))]
    exact two_pos
  case refine_3 =>
    have hpre : '$' ∉ l.front ++ ['{', '{'] := by
      rw [List.mem_append, not_or]
      exact ⟨notMem_spaces h.front (by decide), by decide⟩
    rw [ht, show l.front ++ '{' :: '{' :: (l.inner ++ '}' :: '}' :: l.back) =
      l.front ++ ['{', '{'] ++ (l.inner ++ '}' :: '}' :: l.back) by simp,
      Pattern.search_past env_begins hpre]
    refine env_without ?_
    simpa using ⟨(noBrace_iff.1 hi).1, hback⟩

theorem findAll_env (h : l.Casts cast) (hp : l.Plain) (hkind : l.kind = .env) :
    flowToken.findAll l.text.toList = [] ∧ envToken.findAll l.text.toList = [l.seen] := by
  simp only [Plain, hkind] at hp
  have ⟨hi, _⟩ := hp
  have ht : l.text.toList = l.front ++ '$' :: '{' :: (l.inner ++ '}' :: l.back) := by
    simp [text, token, hkind, TokenKind.opening, TokenKind.closing]
  have hclose {m : List Char} (hm : ∀ c ∈ m, isAnySpace c) : m.count '}' = 0 :=
    List.count_eq_zero_of_not_mem (notMem_spaces hm (by decide))
  refine ⟨Pattern.findAll_nil ?_, Pattern.findAll_one (t := l.back) ?_ ?_ text_ne⟩
  case refine_1 =>
    refine flow_without ?_
    rw [ht]
    simp only [List.count_append, List.count_cons, hclose h.front, hclose h.back,
      List.count_eq_zero_of_not_mem hi]
    decide
  case refine_2 =>
    rw [ht, Pattern.search_past env_begins (notMem_spaces h.front (by decide)), seen, hkind]
    exact Pattern.search_here (envToken_head? hi)
  case refine_3 => exact env_without (notMem_spaces h.back (by decide))

theorem castError_seen (hc : trailingCast l.seen = some cast.keyword) {s : String}
    {«open» close : String} : castError s (some l.seen) «open» close l.seen = none := by
  simp [castError, hc, castKeywords_cast]

-- A token that the editor reads is the whole of its text.
theorem exec_seen (h : l.Casts cast) (hn : nextLine ∉ l.pad) (hp : l.Plain) :
    (wholeToken l.kind).exec (jsTrim l.text).toList = some l.seen := by
  have ht : (jsTrim l.text).toList = l.token := by
    rw [jsTrim, Text.trim, String.toList_ofList]
    exact (strip_text (fun _ => isJsSpace_iff) h).mpr (pad_iff.1 hn).1
  rw [ht, token, seen]
  cases hkind : l.kind
  case flow =>
    simp only [Plain, hkind] at hp
    exact pureFlow_exec.2 ⟨l.inner, by simp [TokenKind.opening, TokenKind.closing], hp.1, rfl⟩
  case env =>
    simp only [Plain, hkind] at hp
    exact pureEnv_exec.2 ⟨by simp [TokenKind.opening, TokenKind.closing], hp.1⟩

theorem standalone (h : l.Casts cast) (hn : nextLine ∉ l.pad) (hp : l.Plain) :
    Standalone l.text l.kind l.seen cast.keyword where
  token := exec_seen h hn hp
  cast  := seen_cast h (pad_iff.1 hn).2 hp
  known := castKeywords_cast
  valid := by
    have hc := seen_cast h (pad_iff.1 hn).2 hp
    have hx := exec_seen h hn hp
    rw [jsonBodyCastErrors, checkLeaf]
    cases hkind : l.kind
    case flow =>
      have ⟨hf, he⟩ := findAll_flow h hp hkind
      rw [hkind] at hx
      have hx : pureFlow.exec (jsTrim l.text).toList = some l.seen := hx
      simp [hf, he, hx, castError_seen hc]
    case env =>
      have ⟨hf, he⟩ := findAll_env h hp hkind
      rw [hkind] at hx
      have hx : pureEnv.exec (jsTrim l.text).toList = some l.seen := hx
      simp [hf, he, hx, castError_seen hc]

theorem casts_of {kind : TokenKind} {front name space word back rest : List Char}
    (hf : ∀ c ∈ front, isJsSpace c) (hs : ∀ c ∈ space, isJsSpace c) (hb : ∀ c ∈ back, isJsSpace c)
    (hr : ∀ c ∈ rest, isJsSpace c) (hw : word = cast.keyword.toList) :
    (Leaf.mk kind front name (space ++ word ++ back) rest).Casts cast ∧
      nextLine ∉ (Leaf.mk kind front name (space ++ word ++ back) rest).pad := by
  have hword := word_notSpace (hw ▸ keyword_word cast)
  have hany {m : List Char} (hm : ∀ c ∈ m, isJsSpace c) : ∀ c ∈ m, isAnySpace c :=
    fun c hc => (isJsSpace_iff.mp (hm c hc)).1
  have hnext {m : List Char} (hm : ∀ c ∈ m, isJsSpace c) : nextLine ∉ m :=
    fun hc => (isJsSpace_iff.mp (hm _ hc)).2 rfl
  refine ⟨⟨hany hf, hany hr, ?_⟩, ?_⟩
  case refine_1 =>
    rw [← hw]
    exact Text.Stripped.eq ⟨⟨space, back, rfl, hany hs, hany hb⟩,
      fun c hc => hword c (List.mem_of_mem_head? hc),
      fun c hc => hword c (List.mem_of_mem_getLast? hc)⟩
  case refine_2 =>
    simp only [pad, List.mem_append, not_or]
    exact ⟨⟨hnext hf, ⟨hnext hs, fun h => hword _ h anySpace_nextLine⟩, hnext hb⟩, hnext hr⟩

end Leaf

-- What the editor casts, in terms of the text.
theorem standalone_iff {s : String} {kind : TokenKind} {inner : List Char} {keyword : String} :
    Standalone s kind inner keyword ↔ ∃ (l : Leaf) (cast : Engine.Cast), l.Casts cast ∧ l.text = s ∧
      nextLine ∉ l.pad ∧ l.Plain ∧ kind = l.kind ∧ inner = l.seen ∧ keyword = cast.keyword := by
  constructor
  case mpr =>
    rintro ⟨l, cast, hc, rfl, hn, hp, rfl, rfl, rfl⟩
    exact Leaf.standalone hc hn hp
  case mp =>
    intro h
    obtain ⟨cast, rfl⟩ := mem_castKeywords.1 h.known
    obtain ⟨before, space, rfl, hs, hw, hdash⟩ := trailingCast_eq_some.1 h.cast
    have htoken := h.token
    rw [jsTrim, Text.trim, String.toList_ofList] at htoken
    obtain ⟨front, rest, hsides, hf, hr⟩ := (Text.strip_stripped isJsSpace s.toList).sides
    have hlast {gap : List Char} (hg : ∀ c ∈ gap, isJsSpace c) :
        (gap ++ before).getLast? ≠ some '-' := by
      rw [List.getLast?_append]
      cases hb : before.getLast?
      case none =>
        intro hm
        exact absurd (hg _ (List.mem_of_mem_getLast? hm)) (by decide)
      case some c =>
        rw [hb] at hdash
        exact hdash
    cases kind
    case flow =>
      obtain ⟨i, ht, hi, hstrip⟩ := pureFlow_exec.1 htoken
      obtain ⟨gap, back, he, hg, hb⟩ := (hstrip ▸ Text.strip_stripped isJsSpace i).sides
      obtain rfl : i = (gap ++ before) ++ ':' :: (space ++ cast.keyword.toList ++ back) := by
        rw [he]
        simp
      obtain ⟨hc, hn⟩ :=
        @Leaf.casts_of cast .flow front (gap ++ before) space _ back rest hf hs hb hr rfl
      refine ⟨_, cast, hc, ?_, hn, ⟨hi, hlast hg⟩, rfl, hstrip.symm, rfl⟩
      rw [← String.toList_inj, hsides, ht, Leaf.text, String.toList_ofList]
      simp [Leaf.token, Leaf.inner, TokenKind.opening, TokenKind.closing]
    case env =>
      obtain ⟨ht, hi⟩ := pureEnv_exec.1 htoken
      obtain ⟨hc, hn⟩ := @Leaf.casts_of cast .env front before space _ [] rest hf hs (by simp) hr rfl
      have hinner : before ++ ':' :: (space ++ cast.keyword.toList) =
          before ++ ':' :: (space ++ cast.keyword.toList ++ []) := by
        rw [List.append_nil]
      rw [hinner] at ht hi
      refine ⟨_, cast, hc, ?_, hn, ⟨hi, hdash, fun c hc => ?_⟩, rfl, hinner, rfl⟩
      case refine_1 =>
        rw [← String.toList_inj, hsides, ht, Leaf.text, String.toList_ofList]
        simp [Leaf.token, Leaf.inner, TokenKind.opening, TokenKind.closing]
      case refine_2 =>
        obtain ⟨a, word, hk, _⟩ := id hw
        rw [List.append_nil, hk, List.getLast?_append_of_ne_nil _ (List.cons_ne_nil _ _)] at hc
        exact word_notSpace hw c (hk ▸ List.mem_of_mem_getLast? hc)

-- What comes of a name in the engine.
def lookedUp (ctx : Engine.TemplateContext) (name : String) : Except Engine.EngineError String :=
  match ctx.vars.lookup name with
  | some value => .ok value
  | none       => .error (.unknownVar name)

theorem lookedUp_inj {name name' : String} (h : ∀ ctx, lookedUp ctx name = lookedUp ctx name') :
    name = name' := by
  have he := h ⟨∅, ∅, 0, 0, none⟩
  simpa [lookedUp] using he

theorem render_flow {n : List Char} (h : '}' ∉ n) (ctx : Engine.TemplateContext) :
    Engine.render (.ofList (['{', '{'] ++ n ++ ['}', '}'])) ctx =
      lookedUp ctx (Engine.trimmed n) := by
  have hpieces : Engine.pieces 0 (['{', '{'] ++ n ++ ['}', '}']) = [.flow (Engine.trimmed n)] := by
    have hp := @Engine.pieces_flow [] 0 n h
    rwa [Engine.pieces] at hp
  rw [Engine.render_eq, String.toList_ofList, hpieces]
  cases hv : ctx.vars.lookup (Engine.trimmed n) <;>
    simp [Engine.renderPieces, Engine.Piece.render, Engine.Rendering.resolve, Engine.Rendering.push,
      lookedUp, hv, Except.map, bind, Except.bind, pure, Except.pure]

-- The editor and the engine read a text the same way.
structure CastsAgree (s : String) : Prop where
  accepts : (∃ token cast, Engine.parseCastLeaf s = some (token, cast)) ↔
    ∃ kind inner keyword, Standalone s kind inner keyword
  casts   : ∀ token cast, Engine.parseCastLeaf s = some (token, cast) →
    ∀ kind inner keyword, Standalone s kind inner keyword → cast.keyword = keyword
  looksUp : ∀ token cast, Engine.parseCastLeaf s = some (token, cast) →
    ∀ inner keyword, Standalone s .flow inner keyword →
      ∀ ctx, Engine.render token ctx = lookedUp ctx (splitFlowToken inner).1
  refuses : jsonBodyCastErrors (.string s) = [] →
    (¬∃ kind inner keyword, Standalone s kind inner keyword) → Engine.parseCastLeaf s = none

namespace Leaf

-- Whatever only one side takes exception to is not in the text.
def ReadsAlike (l : Leaf) : Prop :=
  (byteOrderMark ∉ l.pad ∧ l.kind.Sole l.inner ↔ nextLine ∉ l.pad ∧ l.Plain) ∧
    (l.kind = .flow → byteOrderMark ∉ l.pad → nextLine ∉ l.pad → l.Plain → Settled l.name)

variable {l : Leaf} {cast : Engine.Cast}

theorem parsed (h : l.Casts cast) (hm : byteOrderMark ∉ l.pad) (hs : l.kind.Sole l.inner) :
    Engine.parseCastLeaf l.text = some (l.bare, cast) :=
  parseCastLeaf_iff.2 ⟨l, h, rfl, hm, hs, rfl⟩

theorem parsed_eq (h : l.Casts cast) {token : String} {cast' : Engine.Cast}
    (he : Engine.parseCastLeaf l.text = some (token, cast')) :
    byteOrderMark ∉ l.pad ∧ l.kind.Sole l.inner ∧ token = l.bare ∧ cast' = cast := by
  obtain ⟨l', h', ht, hm, hs, rfl⟩ := parseCastLeaf_iff.1 he
  obtain ⟨rfl, rfl⟩ := eq_of_text h' h ht
  exact ⟨hm, hs, rfl, rfl⟩

theorem standalone_eq (h : l.Casts cast) {kind : TokenKind} {inner : List Char} {keyword : String}
    (he : Standalone l.text kind inner keyword) :
    nextLine ∉ l.pad ∧ l.Plain ∧ kind = l.kind ∧ inner = l.seen ∧ keyword = cast.keyword := by
  obtain ⟨l', cast', h', ht, hn, hp, rfl, rfl, rfl⟩ := standalone_iff.1 he
  obtain ⟨rfl, rfl⟩ := eq_of_text h' h ht
  exact ⟨hn, hp, rfl, rfl, rfl⟩

theorem close_notMem (h : NoBrace l.inner) : '}' ∉ Text.strip isWhiteSpace l.name := by
  intro hm
  obtain ⟨front, back, he, _⟩ := (Text.strip_stripped isWhiteSpace l.name).sides
  have hname : '}' ∉ l.name := fun hm => (noBrace_iff.1 h).2 (List.mem_append_left _ hm)
  rw [he] at hname
  exact hname (List.mem_append_left _ (List.mem_append_right _ hm))

theorem render_bare (hkind : l.kind = .flow) (hp : l.Plain) (ctx : Engine.TemplateContext) :
    Engine.render l.bare ctx = lookedUp ctx (.ofList (Text.strip isWhiteSpace l.name)) := by
  simp only [Plain, hkind] at hp
  rw [bare, hkind]
  exact (render_flow (close_notMem hp.1) ctx).trans (by rw [Engine.trimmed, Text.strip_strip])

end Leaf

-- The editor and the engine cast the same texts to the same types, where each token is read alike.
theorem casts_agree_iff (s : String) :
    CastsAgree s ↔ ∀ (l : Leaf) (cast : Engine.Cast), l.Casts cast → l.text = s → l.ReadsAlike := by
  constructor
  case mp =>
    rintro h l cast hc rfl
    refine ⟨⟨fun ⟨hm, hs⟩ => ?_, fun ⟨hn, hp⟩ => ?_⟩, fun hkind hm hn hp => ?_⟩
    case refine_1 =>
      have ⟨_, _, _, hst⟩ := h.accepts.mp ⟨_, _, Leaf.parsed hc hm hs⟩
      have ⟨hn, hp, _⟩ := Leaf.standalone_eq hc hst
      exact ⟨hn, hp⟩
    case refine_2 =>
      have ⟨_, _, hparse⟩ := h.accepts.mpr ⟨_, _, _, Leaf.standalone hc hn hp⟩
      have ⟨hm, hs, _⟩ := Leaf.parsed_eq hc hparse
      exact ⟨hm, hs⟩
    case refine_3 =>
      have hst := Leaf.standalone hc hn hp
      have ⟨token, cast', hparse⟩ := h.accepts.mpr ⟨_, _, _, hst⟩
      obtain ⟨_, _, rfl, rfl⟩ := Leaf.parsed_eq hc hparse
      have hlook := h.looksUp _ _ hparse l.seen cast'.keyword (hkind ▸ hst)
      rw [Leaf.splitFlowToken_seen hc (Leaf.pad_iff.mp hn).2 hp] at hlook
      have hname := lookedUp_inj fun ctx => (Leaf.render_bare hkind hp ctx).symm.trans (hlook ctx)
      exact strip_settled.mp (String.ofList_injective hname).symm
  case mpr =>
    intro h
    have haccepts : (∃ token cast, Engine.parseCastLeaf s = some (token, cast)) ↔
        ∃ kind inner keyword, Standalone s kind inner keyword := by
      constructor
      case mp =>
        rintro ⟨token, cast, hparse⟩
        obtain ⟨l, hc, rfl, hm, hs, rfl⟩ := parseCastLeaf_iff.1 hparse
        have ⟨hn, hp⟩ := (h l cast hc rfl).1.mp ⟨hm, hs⟩
        exact ⟨_, _, _, Leaf.standalone hc hn hp⟩
      case mpr =>
        rintro ⟨kind, inner, keyword, hst⟩
        obtain ⟨l, cast, hc, rfl, hn, hp, _⟩ := standalone_iff.1 hst
        have ⟨hm, hs⟩ := (h l cast hc rfl).1.mpr ⟨hn, hp⟩
        exact ⟨_, _, Leaf.parsed hc hm hs⟩
    refine ⟨haccepts, fun token cast hparse kind inner keyword hst => ?_,
      fun token cast hparse inner keyword hst ctx => ?_, fun _ hno => ?_⟩
    case refine_1 =>
      obtain ⟨l, hc, rfl, _⟩ := parseCastLeaf_iff.1 hparse
      exact (Leaf.standalone_eq hc hst).2.2.2.2.symm
    case refine_2 =>
      obtain ⟨l, hc, rfl, hm, _, rfl⟩ := parseCastLeaf_iff.1 hparse
      obtain ⟨hn, hp, hkind, rfl, _⟩ := Leaf.standalone_eq hc hst
      have hsettled := (h l cast hc rfl).2 hkind.symm hm hn hp
      rw [Leaf.splitFlowToken_seen hc (Leaf.pad_iff.mp hn).2 hp, Leaf.render_bare hkind.symm hp,
        strip_settled.mpr hsettled]
    case refine_3 =>
      refine Option.eq_none_iff_forall_ne_some.mpr fun ⟨token, cast⟩ hparse => ?_
      exact hno (haccepts.mp ⟨token, cast, hparse⟩)

-- The engine casts a variable whose name ends in a dash, which the editor takes for a default.
theorem dash_cast_by_engine_only :
    Engine.parseCastLeaf "{{a-:num}}" = some ("{{a-}}", .num) ∧
      jsonBodyCastErrors (.string "{{a-:num}}") = [] ∧
      ¬CastsAgree "{{a-:num}}" := by
  have hparse :
      Engine.parseCastLeaf "{{a-:num}}" = some ("{{a-}}", .num) := by decide
  have hnone : trailingCast "a-:num".toList = none := by decide
  refine ⟨hparse, by decide, fun h => ?_⟩
  obtain ⟨kind, inner, keyword, hst⟩ := h.accepts.mp ⟨_, _, hparse⟩
  have ht := hst.token
  cases kind
  case flow =>
    have hflow : (wholeToken .flow).exec (jsTrim "{{a-:num}}").toList = some "a-:num".toList := by
      decide
    rw [hflow] at ht
    have hc := hst.cast
    rw [← Option.some.inj ht, hnone] at hc
    cases hc
  case env =>
    have henv : (wholeToken .env).exec (jsTrim "{{a-:num}}").toList = none := by decide
    rw [henv] at ht
    cases ht

end Ui
