import Mathlib.Data.List.DropRight

-- Regular expressions that match in an order of preference, as backtracking does.
inductive Regex
  | empty
  | start
  | stop
  | one (p : Char → Bool)
  | many (p : Char → Bool)
  | few (p : Char → Bool)
  | seq (r s : Regex)
  | alt (r s : Regex)

namespace Regex

def literal : List Char → Regex
  | []     => empty
  | c :: l => seq (one (· = c)) (literal l)

def opt (r : Regex) : Regex :=
  alt r empty

-- At least one character, and as many as there are.
def plus (p : Char → Bool) : Regex :=
  seq (one p) (many p)

def manySplits (p : Char → Bool) : List Char → List (List Char × List Char)
  | []     => [([], [])]
  | c :: l =>
    if p c then (manySplits p l).map (fun m => (c :: m.1, m.2)) ++ [([], c :: l)] else [([], c :: l)]

def fewSplits (p : Char → Bool) : List Char → List (List Char × List Char)
  | []     => [([], [])]
  | c :: l =>
    ([], c :: l) :: if p c then (fewSplits p l).map (fun m => (c :: m.1, m.2)) else []

-- What may be matched at the beginning of a text, with what comes after it, in the order in which
-- it is tried. The flag tells whether nothing comes before the text.
def splits : Regex → Bool → List Char → List (List Char × List Char)
  | empty, _, l     => [([], l)]
  | start, atStart, l => if atStart then [([], l)] else []
  | stop, _, l      => if l = [] then [([], [])] else []
  | one p, _, l     =>
    match l with
    | []     => []
    | c :: l => if p c then [([c], l)] else []
  | many p, _, l    => manySplits p l
  | few p, _, l     => fewSplits p l
  | seq r s, atStart, l =>
    (splits r atStart l).flatMap fun m =>
      (splits s (atStart && m.1.isEmpty) m.2).map fun n => (m.1 ++ n.1, n.2)
  | alt r s, atStart, l => splits r atStart l ++ splits s atStart l

variable {p : Char → Bool} {r s : Regex} {atStart : Bool} {l m t : List Char}

theorem mem_manySplits : (m, t) ∈ manySplits p l ↔ m ++ t = l ∧ ∀ c ∈ m, p c := by
  induction l generalizing m
  case nil => simp +contextual [manySplits]
  case cons c l ih =>
    rw [manySplits]
    cases m
    case nil => split_ifs <;> simp
    case cons d m =>
      split_ifs with hc
      case pos =>
        have hi := @ih m
        simp only [List.mem_append, List.mem_map, List.mem_singleton, Prod.mk.injEq]
        constructor
        case mp =>
          rintro (⟨⟨m', t'⟩, hm, hm', rfl⟩ | ⟨h, _⟩)
          case inl =>
            obtain ⟨rfl, rfl⟩ := List.cons.inj hm'
            have ⟨he, hp⟩ := hi.mp hm
            exact ⟨by rw [List.cons_append, he], List.forall_mem_cons.mpr ⟨hc, hp⟩⟩
          case inr => cases h
        case mpr =>
          intro ⟨he, hp⟩
          rw [List.cons_append, List.cons.injEq] at he
          obtain ⟨rfl, he⟩ := he
          exact .inl ⟨(m, t), hi.mpr ⟨he, (List.forall_mem_cons.mp hp).2⟩, rfl, rfl⟩
      case neg =>
        simp only [List.mem_singleton, Prod.mk.injEq, List.cons_append, List.cons.injEq,
          List.forall_mem_cons, reduceCtorEq, false_and, false_iff]
        rintro ⟨⟨rfl, _⟩, hp, _⟩
        exact hc hp

theorem mem_fewSplits : (m, t) ∈ fewSplits p l ↔ m ++ t = l ∧ ∀ c ∈ m, p c := by
  have hperm (l : List Char) : ∀ x, x ∈ fewSplits p l ↔ x ∈ manySplits p l := by
    induction l
    case nil => simp [fewSplits, manySplits]
    case cons c l ih =>
      intro x
      rw [fewSplits, manySplits]
      split_ifs
      case pos =>
        simp only [List.mem_cons, List.mem_append, List.mem_map, List.not_mem_nil, or_false, ih]
        exact or_comm
      case neg => rfl
  rw [hperm, mem_manySplits]

@[simp]
theorem mem_empty : (m, t) ∈ splits empty atStart l ↔ m = [] ∧ t = l := by
  change (m, t) ∈ [([], l)] ↔ _
  simp

@[simp]
theorem mem_start : (m, t) ∈ splits start atStart l ↔ atStart ∧ m = [] ∧ t = l := by
  change (m, t) ∈ (if atStart then [([], l)] else []) ↔ _
  cases atStart <;> simp

@[simp]
theorem mem_stop : (m, t) ∈ splits stop atStart l ↔ m = [] ∧ t = [] ∧ l = [] := by
  change (m, t) ∈ (if l = [] then [([], [])] else []) ↔ _
  by_cases h : l = [] <;> simp [h]

@[simp]
theorem mem_one : (m, t) ∈ splits (one p) atStart l ↔ ∃ c, p c ∧ m = [c] ∧ l = c :: t := by
  cases l
  case nil =>
    change (m, t) ∈ [] ↔ _
    simp
  case cons c l =>
    change (m, t) ∈ (if p c then [([c], l)] else []) ↔ _
    by_cases h : p c
    case pos =>
      simp only [h, if_true, List.mem_singleton, Prod.mk.injEq, List.cons.injEq]
      exact ⟨fun ⟨hm, ht⟩ => ⟨c, h, hm, rfl, ht.symm⟩, fun ⟨d, _, hm, hd, ht⟩ => ⟨hd ▸ hm, ht.symm⟩⟩
    case neg =>
      simp only [h, Bool.false_eq_true, if_false, List.not_mem_nil, false_iff, List.cons.injEq]
      rintro ⟨d, hd, _, rfl, _⟩
      exact h hd

@[simp]
theorem mem_many : (m, t) ∈ splits (many p) atStart l ↔ m ++ t = l ∧ ∀ c ∈ m, p c :=
  mem_manySplits

@[simp]
theorem mem_few : (m, t) ∈ splits (few p) atStart l ↔ m ++ t = l ∧ ∀ c ∈ m, p c :=
  mem_fewSplits

@[simp]
theorem mem_seq : (m, t) ∈ splits (seq r s) atStart l ↔ ∃ m₁ t₁ m₂, (m₁, t₁) ∈ splits r atStart l ∧
    (m₂, t) ∈ splits s (atStart && m₁.isEmpty) t₁ ∧ m = m₁ ++ m₂ := by
  change (m, t) ∈ (splits r atStart l).flatMap (fun m =>
    (splits s (atStart && m.1.isEmpty) m.2).map fun n => (m.1 ++ n.1, n.2)) ↔ _
  simp only [List.mem_flatMap, List.mem_map, Prod.exists, Prod.mk.injEq]
  constructor
  case mp =>
    rintro ⟨m₁, t₁, h₁, m₂, t₂, h₂, rfl, rfl⟩
    exact ⟨m₁, t₁, m₂, h₁, h₂, rfl⟩
  case mpr =>
    rintro ⟨m₁, t₁, m₂, h₁, h₂, rfl⟩
    exact ⟨m₁, t₁, h₁, m₂, t, h₂, rfl, rfl⟩

@[simp]
theorem mem_alt : (m, t) ∈ splits (alt r s) atStart l ↔
    (m, t) ∈ splits r atStart l ∨ (m, t) ∈ splits s atStart l :=
  List.mem_append

theorem mem_opt : (m, t) ∈ splits (opt r) atStart l ↔
    (m, t) ∈ splits r atStart l ∨ m = [] ∧ t = l := by
  simp [opt]

theorem mem_plus : (m, t) ∈ splits (plus p) atStart l ↔ m ++ t = l ∧ m ≠ [] ∧ ∀ c ∈ m, p c := by
  simp only [plus, mem_seq, mem_one, mem_many]
  constructor
  case mp =>
    rintro ⟨_, t₁, m₂, ⟨c, hc, rfl, rfl⟩, ⟨rfl, hm⟩, rfl⟩
    exact ⟨rfl, by simp, List.forall_mem_cons.mpr ⟨hc, hm⟩⟩
  case mpr =>
    rintro ⟨rfl, hne, hm⟩
    obtain ⟨c, m, rfl⟩ := List.exists_cons_of_ne_nil hne
    have ⟨hc, hm⟩ := List.forall_mem_cons.mp hm
    exact ⟨[c], m ++ t, m, ⟨c, hc, rfl, rfl⟩, ⟨rfl, hm⟩, rfl⟩

theorem mem_literal {word : List Char} :
    (m, t) ∈ splits (literal word) atStart l ↔ m = word ∧ l = word ++ t := by
  induction word generalizing atStart m l
  case nil => simp [literal, eq_comm]
  case cons c word ih =>
    simp only [literal, mem_seq, mem_one, decide_eq_true_eq, ih]
    constructor
    case mp =>
      rintro ⟨_, _, _, ⟨_, rfl, rfl, rfl⟩, ⟨rfl, rfl⟩, rfl⟩
      exact ⟨rfl, rfl⟩
    case mpr =>
      rintro ⟨rfl, rfl⟩
      exact ⟨[c], word ++ t, word, ⟨c, rfl, rfl, rfl⟩, ⟨rfl, rfl⟩, rfl⟩

theorem splits_literal {word : List Char} :
    splits (literal word) atStart (word ++ t) = [(word, t)] := by
  induction word generalizing atStart
  case nil          => rfl
  case cons c word ih => simp [literal, splits, ih]

-- As much as possible is tried first.
theorem manySplits_head? (p : Char → Bool) (l : List Char) :
    (manySplits p l).head? = Option.some (l.takeWhile p, l.dropWhile p) := by
  induction l
  case nil => rfl
  case cons c l ih =>
    rw [manySplits]
    split_ifs with hc
    case pos =>
      simp [hc, ih, List.head?_append]
    case neg => simp [hc]

theorem rdropWhile_cons {c : Char} (h : ¬∀ d ∈ c :: l, p d) :
    (c :: l).rdropWhile p = c :: l.rdropWhile p := by
  rw [List.rdropWhile, List.rdropWhile, List.reverse_cons, List.dropWhile_append]
  split_ifs with he
  case pos =>
    have hl : ∀ d ∈ l, p d := by simpa using he
    have hc : ¬p c := fun hc => h (List.forall_mem_cons.mpr ⟨hc, hl⟩)
    simp [hc, List.isEmpty_iff.mp he]
  case neg => simp

-- As little as possible is tried first, until what comes after it matches.
theorem fewSplits_head? {α : Type*} {q : Char → Bool} {after : List Char → List α} {rest : List Char}
    {x : α} (hl : ∀ c ∈ l, p c)
    (hq : ∀ y, y <:+ l → (∀ c ∈ y, q c) → (after (y ++ rest)).head? = Option.some x)
    (hn : ∀ y, y <:+ l → ¬(∀ c ∈ y, q c) → after (y ++ rest) = []) :
    ((fewSplits p (l ++ rest)).flatMap fun n => (after n.2).map fun k => (n.1, k)).head? =
      Option.some (l.rdropWhile q, x) := by
  have hfirst (t : List Char) : ∃ more, fewSplits p t = ([], t) :: more := by
    cases t
    case nil      => exact ⟨[], rfl⟩
    case cons c t => exact ⟨_, rfl⟩
  induction l
  case nil =>
    have ⟨more, hm⟩ := hfirst rest
    have hx := hq [] (List.suffix_refl _) (by simp)
    rw [List.nil_append] at hx
    simp [hm, hx, List.head?_append]
  case cons c l ih =>
    by_cases hall : ∀ d ∈ c :: l, q d
    case pos =>
      have ⟨more, hm⟩ := hfirst (c :: l ++ rest)
      have hx := hq (c :: l) (List.suffix_refl _) hall
      rw [hm, List.rdropWhile_eq_nil_iff.mpr hall, List.flatMap_cons, List.head?_append,
        List.head?_map, hx]
      rfl
    case neg =>
      have ⟨hc, hl⟩ := List.forall_mem_cons.mp hl
      have hnil := hn (c :: l) (List.suffix_refl _) hall
      have ih := ih hl (fun y hy => hq y (hy.trans (List.suffix_cons c l)))
        (fun y hy => hn y (hy.trans (List.suffix_cons c l)))
      rw [rdropWhile_cons hall, List.cons_append, fewSplits, if_pos hc, List.flatMap_cons,
        ← List.cons_append, hnil, List.map_nil, List.nil_append, List.flatMap_map]
      have hmap : ((fewSplits p (l ++ rest)).flatMap fun n =>
          (after n.2).map fun k => (c :: n.1, k)) =
          ((fewSplits p (l ++ rest)).flatMap fun n => (after n.2).map fun k => (n.1, k)).map
            fun n => (c :: n.1, n.2) := by
        simp [List.map_flatMap, Function.comp_def]
      rw [hmap, List.head?_map, ih]
      rfl

theorem head?_flatMap_of {α β : Type*} {l : List α} {f : α → List β} {a : α} {b : β}
    (ha : l.head? = Option.some a) (hb : (f a).head? = Option.some b) :
    (l.flatMap f).head? = Option.some b := by
  cases l
  case nil => cases ha
  case cons a' l =>
    cases ha
    rw [List.flatMap_cons, List.head?_append, hb]
    rfl

end Regex

-- An expression with one group.
structure Pattern where
  before : Regex
  group  : Regex
  after  : Regex

namespace Pattern

variable (re : Pattern)

-- What the group matches at the beginning of a text, with what comes after the whole match.
def candidates (atStart : Bool) (l : List Char) : List (List Char × List Char) :=
  (re.before.splits atStart l).flatMap fun m =>
    (re.group.splits (atStart && m.1.isEmpty) m.2).flatMap fun n =>
      (re.after.splits (atStart && m.1.isEmpty && n.1.isEmpty) n.2).map fun k => (n.1, k.2)

def matchAt (atStart : Bool) (l : List Char) : Option (List Char × List Char) :=
  (re.candidates atStart l).head?

-- The first match from left to right.
def search : Bool → List Char → Option (List Char × List Char)
  | atStart, []     => re.matchAt atStart []
  | atStart, c :: l => (re.matchAt atStart (c :: l)).or (search false l)

def exec (l : List Char) : Option (List Char) :=
  (re.search true l).map Prod.fst

def test (l : List Char) : Bool :=
  (re.search true l).isSome

-- What the group matches in all matches, one after the other. No match is empty, so each of them
-- leaves less of the text.
def findAll (l : List Char) : List (List Char) :=
  go l.length true l
where
  go : ℕ → Bool → List Char → List (List Char)
    | 0, _, _             => []
    | fuel + 1, atStart, l  =>
      match re.search atStart l with
      | none           => []
      | some (m, rest) => m :: go fuel false rest

-- The expression for a text that is one match and nothing else.
def whole : Pattern :=
  { re with before := .seq .start re.before, after := .seq re.after .stop }

variable {re : Pattern} {atStart : Bool} {l m t : List Char}

theorem mem_candidates : (m, t) ∈ re.candidates atStart l ↔ ∃ m₁ t₁ t₂ m₂,
    (m₁, t₁) ∈ re.before.splits atStart l ∧
    (m, t₂) ∈ re.group.splits (atStart && m₁.isEmpty) t₁ ∧
    (m₂, t) ∈ re.after.splits (atStart && m₁.isEmpty && m.isEmpty) t₂ := by
  simp only [candidates, List.mem_flatMap, List.mem_map, Prod.exists, Prod.mk.injEq]
  constructor
  case mp =>
    rintro ⟨m₁, t₁, h₁, m', t₂, h, m₂, t', h₂, rfl, rfl⟩
    exact ⟨m₁, t₁, t₂, m₂, h₁, h, h₂⟩
  case mpr =>
    rintro ⟨m₁, t₁, t₂, m₂, h₁, h, h₂⟩
    exact ⟨m₁, t₁, h₁, m, t₂, h, m₂, t, h₂, rfl, rfl⟩

-- An expression that matches at the start of the text only.
theorem search_anchored (h : ∀ l, re.candidates false l = []) :
    re.search true l = (re.candidates true l).head? := by
  have hs (l : List Char) : re.search false l = none := by
    induction l
    case nil         => simp [search, matchAt, h]
    case cons c l ih => simp [search, matchAt, h, ih]
  cases l
  case nil      => rfl
  case cons c l => rw [search, hs, Option.or_none, matchAt]

theorem mem_whole (h : (m, t) ∈ re.whole.candidates atStart l) :
    atStart ∧ t = [] ∧ (m, t) ∈ re.candidates atStart l := by
  obtain ⟨_, _, _, _, hb, hg, ha⟩ := Iff.mp mem_candidates h
  obtain ⟨_, _, _, hstart, hb', rfl⟩ := Iff.mp Regex.mem_seq hb
  obtain ⟨hf, rfl, rfl⟩ := Iff.mp Regex.mem_start hstart
  obtain ⟨_, _, _, ha', hstop, rfl⟩ := Iff.mp Regex.mem_seq ha
  obtain ⟨rfl, rfl, rfl⟩ := Iff.mp Regex.mem_stop hstop
  rw [List.isEmpty_nil, Bool.and_true] at hb'
  exact ⟨hf, rfl, Iff.mpr mem_candidates ⟨_, _, _, _, hb', hg, ha'⟩⟩

theorem search_whole : re.whole.search true l = (re.whole.candidates true l).head? :=
  search_anchored fun _ => List.eq_nil_iff_forall_not_mem.mpr
    fun _ hx => absurd (mem_whole hx).1 (by simp)

theorem test_anchored (h : ∀ l, re.candidates false l = []) :
    re.test l ↔ ∃ m t, (m, t) ∈ re.candidates true l := by
  rw [test, search_anchored h]
  cases re.candidates true l
  case nil      => simp
  case cons x _ => exact iff_of_true rfl ⟨x.1, x.2, List.mem_cons_self⟩

-- A match that is found is one of the candidates at some place of the text.
theorem mem_of_search {x : List Char × List Char} (h : re.search atStart l = some x) :
    ∃ pre t, l = pre ++ t ∧ x ∈ re.candidates (atStart && pre.isEmpty) t := by
  induction l generalizing atStart
  case nil =>
    refine ⟨[], [], rfl, ?_⟩
    rw [List.isEmpty_nil, Bool.and_true]
    exact List.mem_of_mem_head? h
  case cons c l ih =>
    rw [search, Option.or_eq_some_iff] at h
    obtain h | ⟨_, h⟩ := h
    case inl =>
      refine ⟨[], c :: l, rfl, ?_⟩
      rw [List.isEmpty_nil, Bool.and_true]
      exact List.mem_of_mem_head? h
    case inr =>
      have ⟨pre, t, he, hx⟩ := ih h
      refine ⟨c :: pre, t, by rw [he, List.cons_append], ?_⟩
      simpa using hx

theorem search_isSome {pre : List Char} {x : List Char × List Char}
    (h : x ∈ re.candidates (atStart && pre.isEmpty) t) : (re.search atStart (pre ++ t)).isSome := by
  induction pre generalizing atStart
  case nil =>
    rw [List.isEmpty_nil, Bool.and_true] at h
    have hm : (re.matchAt atStart t).isSome := by
      rw [matchAt, List.isSome_head?]
      simpa using List.ne_nil_of_mem h
    cases t
    case nil      => exact hm
    case cons c t => simp [search, hm]
  case cons c pre ih =>
    simp only [List.isEmpty_cons, Bool.and_false] at h
    have hs := @ih false (by simpa using h)
    simp [search, hs]

theorem search_here {x : List Char × List Char} (h : (re.candidates atStart l).head? = some x) :
    re.search atStart l = some x := by
  cases l
  case nil      => exact h
  case cons c l => simp [search, matchAt, h]

-- What cannot begin a match is passed over.
theorem search_past {d : Char} {pre : List Char}
    (hd : ∀ b l, ∀ x ∈ re.candidates b l, l.head? = some d) (hp : d ∉ pre) :
    re.search atStart (pre ++ t) = re.search (atStart && pre.isEmpty) t := by
  induction pre generalizing atStart
  case nil => simp
  case cons c pre ih =>
    have hc : re.candidates atStart (c :: (pre ++ t)) = [] := by
      refine List.eq_nil_iff_forall_not_mem.mpr fun x hx => ?_
      obtain rfl : c = d := by simpa using hd _ _ x hx
      exact hp List.mem_cons_self
    have ih := @ih false fun h => hp (List.mem_cons_of_mem _ h)
    simpa [search, matchAt, hc] using ih

theorem findAll_nil (h : re.search true l = none) : re.findAll l = [] := by
  unfold findAll
  cases l.length <;> simp [findAll.go, h]

theorem findAll_one (h : re.search true l = some (m, t)) (ht : re.search false t = none)
    (hl : l ≠ []) : re.findAll l = [m] := by
  obtain ⟨c, l, rfl⟩ := List.exists_cons_of_ne_nil hl
  rw [findAll, List.length_cons, findAll.go, h]
  cases l.length <;> simp [findAll.go, ht]

end Pattern
