import Handicap.Library.JsonPath
import Handicap.Library.Text

-- The texts of queries in the grammar of RFC 9535.
namespace JsonPath

def blanks : List Char :=
  [' ', '\t', '\n', '\r']

def Blank (l : List Char) : Prop :=
  ∀ c ∈ l, c ∈ blanks

def NameFirst (c : Char) : Prop :=
  c.isAlpha ∨ c = '_' ∨ 0x80 ≤ c.toNat

def NameChar (c : Char) : Prop :=
  NameFirst c ∨ c.isDigit

inductive Shorthand : List Char → Prop
  | mk {c : Char} {l : List Char} : NameFirst c → (∀ d ∈ l, NameChar d) → Shorthand (c :: l)

def hexDigit (c : Char) : Option ℕ :=
  if c.isDigit then some (c.toNat - '0'.toNat)
  else if 'a' ≤ c ∧ c ≤ 'f' then some (c.toNat - 'a'.toNat + 10)
  else if 'A' ≤ c ∧ c ≤ 'F' then some (c.toNat - 'A'.toNat + 10)
  else none

def hexCode : List Char → Option ℕ
  | [a, b, c, d] => do
    return (((← hexDigit a) * 16 + (← hexDigit b)) * 16 + (← hexDigit c)) * 16 + (← hexDigit d)
  | _            => none

-- The letters of escapes with the characters that they stand for.
def escapes : List (Char × Char) :=
  [('b', .ofNat 8), ('f', .ofNat 12), ('n', '\n'), ('r', '\r'), ('t', '\t'), ('/', '/'),
    ('\\', '\\')]

-- What stands between quotation marks, and the text that it denotes.
inductive Literal (quote : Char) : List Char → List Char → Prop
  | nil : Literal quote [] []
  | unescaped {c : Char} {l m : List Char} : 0x20 ≤ c.toNat → c ≠ quote → c ≠ '\\' →
    Literal quote l m → Literal quote (c :: l) (c :: m)
  | quote {l m : List Char} :
    Literal quote l m → Literal quote ('\\' :: quote :: l) (quote :: m)
  | escaped {c d : Char} {l m : List Char} : (c, d) ∈ escapes →
    Literal quote l m → Literal quote ('\\' :: c :: l) (d :: m)
  | code {u l m : List Char} {n : ℕ} : hexCode u = some n → (n < 0xD800 ∨ 0xE000 ≤ n) →
    Literal quote l m → Literal quote ('\\' :: 'u' :: u ++ l) (.ofNat n :: m)
  | surrogates {u v l m : List Char} {n k : ℕ} : hexCode u = some n → hexCode v = some k →
    0xD800 ≤ n → n < 0xDC00 → 0xDC00 ≤ k → k < 0xE000 → Literal quote l m →
    Literal quote ('\\' :: 'u' :: u ++ '\\' :: 'u' :: v ++ l)
      (.ofNat (0x10000 + (n - 0xD800) * 0x400 + (k - 0xDC00)) :: m)

inductive Number : List Char → ℤ → Prop
  | zero : Number ['0'] 0
  | pos {c : Char} {l : List Char} : c.isDigit → c ≠ '0' → (∀ d ∈ l, d.isDigit) →
    Number (c :: l) (Text.digitsValue (c :: l))
  | neg {c : Char} {l : List Char} : c.isDigit → c ≠ '0' → (∀ d ∈ l, d.isDigit) →
    Number ('-' :: c :: l) (-Text.digitsValue (c :: l))

-- A bound of a slice.
inductive Bound : List Char → Option ℤ → Prop
  | absent : Bound [] none
  | given {l s : List Char} {i : ℤ} : Number l i → Blank s → Bound (l ++ s) (some i)

inductive SliceStep : List Char → Option ℤ → Prop
  | absent : SliceStep [] none
  | colon : SliceStep [':'] none
  | given {l s : List Char} {i : ℤ} : Blank s → Number l i → SliceStep (':' :: s ++ l) (some i)

-- How the expressions of filters are spelled is left open.
section

variable {φ : Type*} (spells : List Char → φ → Prop)

inductive Spells : List Char → Selector φ → Prop
  | name {q : Char} {l m : List Char} : q = '\'' ∨ q = '"' → Literal q l m →
    Spells (q :: l ++ [q]) (.name (.ofList m))
  | wildcard : Spells ['*'] .wildcard
  | index {l : List Char} {i : ℤ} : Number l i → Spells l (.index i)
  | slice {l s m n : List Char} {a b c : Option ℤ} : Bound l a → Blank s → Bound m b →
    SliceStep n c → Spells (l ++ ':' :: s ++ m ++ n) (.slice ⟨a, b, c⟩)
  | filter {s l : List Char} {f : φ} : Blank s → spells l f → Spells ('?' :: s ++ l) (.filter f)

-- The selectors after the first one.
inductive More : List Char → List (Selector φ) → Prop
  | nil : More [] []
  | cons {s t l m : List Char} {sel : Selector φ} {sels : List (Selector φ)} : Blank s → Blank t →
    Spells spells l sel → More m sels → More (s ++ ',' :: t ++ l ++ m) (sel :: sels)

inductive Bracketed : List Char → List (Selector φ) → Prop
  | mk {s t l m : List Char} {sel : Selector φ} {sels : List (Selector φ)} : Blank s → Blank t →
    Spells spells l sel → More spells m sels →
    Bracketed ('[' :: s ++ l ++ m ++ t ++ [']']) (sel :: sels)

inductive SegmentText : List Char → Segment φ → Prop
  | name {l : List Char} : Shorthand l → SegmentText ('.' :: l) (.child [.name (.ofList l)])
  | wildcard : SegmentText ['.', '*'] (.child [.wildcard])
  | bracketed {l : List Char} {sels : List (Selector φ)} : Bracketed spells l sels →
    SegmentText l (.child sels)
  | descendantName {l : List Char} : Shorthand l →
    SegmentText ('.' :: '.' :: l) (.descendant [.name (.ofList l)])
  | descendantWildcard : SegmentText ['.', '.', '*'] (.descendant [.wildcard])
  | descendantBracketed {l : List Char} {sels : List (Selector φ)} : Bracketed spells l sels →
    SegmentText ('.' :: '.' :: l) (.descendant sels)

inductive Segments : List Char → List (Segment φ) → Prop
  | nil : Segments [] []
  | cons {s l m : List Char} {seg : Segment φ} {segs : List (Segment φ)} : Blank s →
    SegmentText spells l seg → Segments m segs → Segments (s ++ l ++ m) (seg :: segs)

inductive Query : List Char → List (Segment φ) → Prop
  | mk {l : List Char} {segs : List (Segment φ)} : Segments spells l segs → Query ('$' :: l) segs

end

-- A text that is spelled in one of these ways and goes on with its delimiter is spelled in no other
-- way.
section

variable {p : Char → Prop} {q c d e : Char} {l m l' m' u v x y : List Char} {n k : ℕ} {i j : ℤ}

theorem append_unique (hl : ∀ c ∈ l, p c) (hm : ∀ c ∈ m, p c) (hx : ∀ c ∈ x.head?, ¬p c)
    (hy : ∀ c ∈ y.head?, ¬p c) (h : l ++ x = m ++ y) : l = m ∧ x = y := by
  induction l generalizing m
  case nil =>
    cases m
    case nil => exact ⟨rfl, h⟩
    case cons c m =>
      exact absurd (hm c List.mem_cons_self) (hx c (by simpa using congrArg List.head? h))
  case cons c l ih =>
    obtain ⟨hc, hl⟩ := List.forall_mem_cons.mp hl
    cases m
    case nil => exact absurd hc (hy c (by simpa using (congrArg List.head? h).symm))
    case cons d m =>
      obtain ⟨rfl, h⟩ := List.cons.inj h
      have ⟨he, hxy⟩ := ih hl (List.forall_mem_cons.mp hm).right (by simpa using h)
      exact ⟨congrArg (c :: ·) he, hxy⟩

theorem Number.unique (h : Number l i) (h' : Number m j) (hx : ∀ c ∈ x.head?, ¬c.isDigit)
    (hy : ∀ c ∈ y.head?, ¬c.isDigit) (he : l ++ x = m ++ y) : i = j ∧ x = y := by
  have hz : ∀ c ∈ ['0'], c.isDigit := by simp
  have hdigits {c : Char} {l : List Char} (hc : c.isDigit) (hl : ∀ d ∈ l, d.isDigit) :
      ∀ d ∈ c :: l, d.isDigit := List.forall_mem_cons.mpr ⟨hc, hl⟩
  cases h
  case zero =>
    cases h'
    case zero => exact ⟨rfl, (append_unique hz hz hx hy he).right⟩
    case pos h0 _ => exact absurd (List.cons.inj he).left.symm h0
    case neg => simp at he
  case pos hc h0 hl =>
    cases h'
    case zero => exact absurd (List.cons.inj he).left h0
    case pos hc' _ hl' =>
      have ⟨hd, hxy⟩ := append_unique (hdigits hc hl) (hdigits hc' hl') hx hy he
      exact ⟨by rw [hd], hxy⟩
    case neg =>
      obtain ⟨rfl, -⟩ := List.cons.inj he
      simp at hc
  case neg hc _ hl =>
    cases h'
    case zero => simp at he
    case pos hc' _ _ =>
      obtain ⟨rfl, -⟩ := List.cons.inj he
      simp at hc'
    case neg hc' _ hl' =>
      have ⟨hd, hxy⟩ := append_unique (hdigits hc hl) (hdigits hc' hl') hx hy (List.cons.inj he).right
      exact ⟨by rw [hd], hxy⟩

theorem hexCode_length (h : hexCode u = some n) : u.length = 4 := by
  unfold hexCode at h
  split at h
  case h_1 => rfl
  case h_2 => simp at h

theorem hexCode_append (hu : hexCode u = some n) (hv : hexCode v = some k) (h : u ++ l = v ++ m) :
    n = k ∧ l = m := by
  have ⟨huv, hlm⟩ := List.append_inj h ((hexCode_length hu).trans (hexCode_length hv).symm)
  exact ⟨Option.some.inj (hu.symm.trans (huv ▸ hv)), hlm⟩

theorem escapes_unique (hd : (c, d) ∈ escapes) (he : (c, e) ∈ escapes) : d = e := by
  have hn : (escapes.map Prod.fst).Nodup := by decide
  exact congrArg Prod.snd (List.inj_on_of_nodup_map hn hd he rfl)

theorem escapes_ne (hq : q = '\'' ∨ q = '"') (h : (c, d) ∈ escapes) : c ≠ q ∧ c ≠ 'u' := by
  have hm : c ∈ escapes.map Prod.fst := List.mem_map_of_mem h
  constructor
  case left =>
    rintro rfl
    obtain rfl | rfl := hq <;> exact absurd hm (by decide)
  case right =>
    rintro rfl
    exact absurd hm (by decide)

theorem Literal.unique (hq : q = '\'' ∨ q = '"') (h : Literal q l m) (h' : Literal q l' m')
    (he : l ++ q :: x = l' ++ q :: y) : m = m' ∧ x = y := by
  have hb : q ≠ '\\' := by rintro rfl; simp at hq
  have hu : q ≠ 'u' := by rintro rfl; simp at hq
  induction h generalizing l' m'
  case nil => cases h' <;> simp_all
  case unescaped ih => cases h' <;> grind
  case quote ih =>
    cases h'
    case escaped hm _ => grind [escapes_ne hq hm]
    all_goals grind
  case escaped hm _ ih =>
    cases h'
    case escaped hm' _ => grind [escapes_ne hq hm', escapes_unique]
    all_goals grind [escapes_ne hq hm]
  case code hn _ _ ih =>
    cases h'
    case escaped hm' _ => grind [escapes_ne hq hm']
    case code hn' _ _ => grind [hexCode_append hn hn']
    case surrogates hn' _ _ _ _ _ _ => grind [hexCode_append hn hn']
    all_goals grind
  case surrogates hn hk _ _ _ _ _ ih =>
    cases h'
    case escaped hm' _ => grind [escapes_ne hq hm']
    case code hn' _ _ => grind [hexCode_append hn hn']
    case surrogates hn' hk' _ _ _ _ _ => grind [hexCode_append hn hn', hexCode_append hk hk']
    all_goals grind

end

section

variable {φ : Type*} {spells : List Char → φ → Prop} {s t l m n x y : List Char}
  {sel : Selector φ} {sels : List (Selector φ)} {seg : Segment φ} {i : ℤ}

theorem blank_head {c : Char} (h : Blank s) (hc : c ∈ (s ++ l).head?) :
    c ∈ blanks ∨ c ∈ l.head? := by
  cases s
  case nil => exact .inr hc
  case cons b s =>
    obtain rfl : b = c := by simpa using hc
    exact .inl (h b List.mem_cons_self)

theorem not_isDigit_of_blank {c : Char} (h : c ∈ blanks) : ¬c.isDigit := by
  simp only [blanks, List.mem_cons, List.not_mem_nil, or_false] at h
  obtain rfl | rfl | rfl | rfl := h <;> decide

theorem Number.cons (h : Number l i) : ∃ c m, l = c :: m ∧ (c.isDigit ∨ c = '-') := by
  cases h
  case zero => exact ⟨'0', [], rfl, .inl rfl⟩
  case pos hc _ _ => exact ⟨_, _, rfl, .inl hc⟩
  case neg => exact ⟨'-', _, rfl, .inr rfl⟩

-- A selector is a name, begins with a number, or begins with one of three signs.
theorem Spells.shape (h : Spells spells n sel) :
    (∃ q l m, (q = '\'' ∨ q = '"') ∧ Literal q l m ∧ n = q :: l ++ [q] ∧ sel = .name (.ofList m)) ∨
    (∃ l i, Number l i ∧ (n = l ∧ sel = .index i ∨ ∃ s k, Blank s ∧ n = l ++ (s ++ ':' :: k))) ∨
    (∃ c k, c ∈ ['*', ':', '?'] ∧ n = c :: k) := by
  cases h
  case name q l m hq hl => exact .inl ⟨q, l, m, hq, hl, rfl, rfl⟩
  case wildcard => exact .inr (.inr ⟨'*', [], by simp, rfl⟩)
  case index i hi => exact .inr (.inl ⟨n, i, hi, .inl ⟨rfl, rfl⟩⟩)
  case slice s m k _ _ _ ha _ _ _ =>
    cases ha
    case absent => exact .inr (.inr ⟨':', _, by simp, rfl⟩)
    case given l t i hi ht =>
      exact .inr (.inl ⟨l, i, hi, .inr ⟨t, s ++ m ++ k, ht, by simp⟩⟩)
  case filter => exact .inr (.inr ⟨'?', _, by simp, rfl⟩)

-- Nothing else is spelled by the text in brackets.
structure Sole (spells : List Char → φ → Prop) (l : List Char) (sel : Selector φ) : Prop where
  spelled : Spells spells l sel
  head    : ∃ c m, l = c :: m ∧ c ∉ blanks
  unique  : ∀ {n x y : List Char} {sel' : Selector φ}, Spells spells n sel' →
    (∀ c ∈ y.head?, ¬c.isDigit) → l ++ ']' :: x = n ++ y → sel' = sel ∧ y = ']' :: x

theorem sole_name {q : Char} (hq : q = '\'' ∨ q = '"') (hl : Literal q l m) :
    Sole spells (q :: l ++ [q]) (.name (.ofList m)) where
  spelled := .name hq hl
  head    := ⟨q, _, rfl, by obtain rfl | rfl := hq <;> decide⟩
  unique {n x y sel'} h _ he := by
    obtain ⟨q', l', m', _, hl', rfl, rfl⟩ | ⟨l', i, hi, hn⟩ | ⟨c, k, hc, rfl⟩ := h.shape
    case inl =>
      simp only [List.cons_append, List.append_assoc, List.nil_append] at he
      obtain ⟨rfl, he⟩ := List.cons.inj he
      obtain ⟨rfl, hy⟩ := hl.unique hq hl' he
      exact ⟨rfl, hy.symm⟩
    case inr.inl =>
      obtain ⟨c, k, rfl, hc⟩ := hi.cons
      have hqc : q = c := by
        obtain ⟨rfl, -⟩ | ⟨s, k', -, rfl⟩ := hn <;> exact (List.cons.inj he).left
      subst hqc
      obtain rfl | rfl := hq <;> simp at hc
    case inr.inr =>
      obtain rfl := (List.cons.inj he).left
      obtain rfl | rfl := hq <;> simp at hc

theorem sole_index (hl : Number l i) : Sole spells l (.index i) where
  spelled := .index hl
  head    := by
    obtain ⟨c, m, rfl, hd⟩ := hl.cons
    refine ⟨c, m, rfl, fun hc => ?_⟩
    obtain hd | rfl := hd
    case inl => exact not_isDigit_of_blank hc hd
    case inr => simp [blanks] at hc
  unique {n x y sel'} h hy he := by
    have hx : ∀ c ∈ (']' :: x).head?, ¬c.isDigit := by simp
    obtain ⟨q, l', m, hq, -, rfl, -⟩ | ⟨l', j, hj, ⟨rfl, rfl⟩ | ⟨s, k, hs, rfl⟩⟩ | ⟨c, k, hc, rfl⟩ :=
      h.shape
    case inl =>
      obtain ⟨c, k, rfl, hc⟩ := hl.cons
      obtain rfl := (List.cons.inj he).left
      obtain rfl | rfl := hq <;> simp at hc
    case inr.inl.inl =>
      obtain ⟨rfl, hy⟩ := hl.unique hj hx hy he
      exact ⟨rfl, hy.symm⟩
    case inr.inl.inr =>
      have hd : ∀ c ∈ (s ++ ':' :: (k ++ y)).head?, c ∈ blanks ∨ c = ':' := fun c hc =>
        (blank_head hs hc).imp_right fun hc => (Option.some.inj hc).symm
      simp only [List.append_assoc, List.cons_append] at he
      have hn : ∀ c ∈ (s ++ ':' :: (k ++ y)).head?, ¬c.isDigit := by
        intro c hc
        obtain hb | rfl := hd c hc
        case inl => exact not_isDigit_of_blank hb
        case inr => decide
      have he := (hl.unique hj hx hn he).right
      exact absurd (hd ']' (by rw [← he]; rfl)) (by decide)
    case inr.inr =>
      obtain ⟨d, m, rfl, hd⟩ := hl.cons
      obtain rfl := (List.cons.inj he).left
      simp only [List.mem_cons, List.not_mem_nil, or_false] at hc
      obtain rfl | rfl | rfl := hc <;> simp at hd

theorem more_head {c : Char} (hm : More spells m sels) (ht : Blank t)
    (hc : c ∈ (m ++ t ++ ']' :: y).head?) : c ∈ blanks ∨ c = ',' ∨ c = ']' := by
  cases hm
  case nil =>
    obtain hb | hb := blank_head ht hc
    case inl => exact .inl hb
    case inr => exact .inr (.inr (Option.some.inj hb).symm)
  case cons s _ _ _ _ _ hs _ _ _ =>
    simp only [List.append_assoc, List.cons_append] at hc
    obtain hb | hb := blank_head hs hc
    case inl => exact .inl hb
    case inr => exact .inr (.inl (Option.some.inj hb).symm)

theorem more_not_isDigit (hm : More spells m sels) (ht : Blank t) :
    ∀ c ∈ (m ++ t ++ ']' :: y).head?, ¬c.isDigit := by
  intro c hc
  obtain hb | rfl | rfl := more_head hm ht hc
  case inl => exact not_isDigit_of_blank hb
  all_goals decide

theorem More.closed (hm : More spells m sels) (ht : Blank t) (h : m ++ t ++ ']' :: y = ']' :: x) :
    sels = [] ∧ y = x := by
  cases hm
  case nil =>
    cases t
    case nil => exact ⟨rfl, (List.cons.inj h).right⟩
    case cons b t =>
      obtain rfl : b = ']' := by simpa using congrArg List.head? h
      exact absurd (ht ']' List.mem_cons_self) (by decide)
  case cons s _ _ _ _ _ hs _ _ _ =>
    cases s
    case nil => simp at h
    case cons b s =>
      obtain rfl : b = ']' := by simpa using congrArg List.head? h
      exact absurd (hs ']' List.mem_cons_self) (by decide)

theorem SegmentText.unique_bracketed (hl : Sole spells l sel) (h : SegmentText spells n seg)
    (he : '[' :: l ++ ']' :: x = n ++ y) :
    seg = .child [sel] ∧ y = x := by
  cases h
  case bracketed sels hb =>
    cases hb
    case mk s t k m sel' more hs ht hk hm =>
      have he : l ++ ']' :: x = s ++ (k ++ (m ++ t ++ ']' :: y)) := by simpa using he
      have hs0 : s = [] := by
        obtain ⟨c, l, rfl, hc⟩ := hl.head
        cases s
        case nil => rfl
        case cons b s =>
          obtain rfl := (List.cons.inj he).left
          exact absurd (hs _ List.mem_cons_self) hc
      subst hs0
      obtain ⟨rfl, hm'⟩ := hl.unique hk (more_not_isDigit hm ht) he
      obtain ⟨rfl, rfl⟩ := hm.closed ht hm'
      exact ⟨rfl, rfl⟩
  all_goals simp at he

theorem SegmentText.unique_name (hl : Shorthand l) (hx : ∀ c ∈ x.head?, ¬NameChar c)
    (hy : ∀ c ∈ y.head?, ¬NameChar c) (h : SegmentText spells n seg)
    (he : '.' :: l ++ x = n ++ y) : seg = .child [.name (.ofList l)] ∧ y = x := by
  have hchars {l : List Char} (h : Shorthand l) : ∀ c ∈ l, NameChar c := by
    cases h
    case mk hc hl => exact List.forall_mem_cons.mpr ⟨.inl hc, hl⟩
  have hfirst : ∀ c ∈ (l ++ x).head?, c ≠ '*' ∧ c ≠ '.' := by
    cases hl
    case mk c l hc _ =>
      rintro _ ⟨⟩
      constructor <;> rintro rfl <;> simp [NameFirst] at hc
  cases h
  case name k hk =>
    obtain ⟨rfl, hxy⟩ := append_unique (hchars hl) (hchars hk) hx hy (List.cons.inj he).right
    exact ⟨rfl, hxy.symm⟩
  case bracketed hb =>
    cases hb
    simp at he
  all_goals
    have he : l ++ x = _ := (List.cons.inj he).right
    have hc := hfirst _ (by rw [he]; rfl)
    simp at hc

theorem SegmentText.cons (h : SegmentText spells l seg) : ∃ m, l = '.' :: m ∨ l = '[' :: m := by
  cases h
  case bracketed hb =>
    cases hb
    exact ⟨_, .inr rfl⟩
  all_goals exact ⟨_, .inl rfl⟩

variable {segs : List (Segment φ)}

theorem Segments.head (h : Segments spells l segs) : ∀ c ∈ l.head?, ¬NameChar c := by
  intro c hc
  cases h
  case nil => simp at hc
  case cons hs hl _ =>
    rw [List.append_assoc] at hc
    obtain hb | hb := blank_head hs hc
    case inl =>
      simp only [blanks, List.mem_cons, List.not_mem_nil, or_false] at hb
      obtain rfl | rfl | rfl | rfl := hb <;> simp [NameChar, NameFirst]
    case inr =>
      obtain ⟨n, rfl | rfl⟩ := hl.cons
      all_goals
        obtain rfl := Option.some.inj hb
        simp [NameChar, NameFirst]

-- A text that begins like a segment is not blank before it.
theorem Segments.cons_inv {c : Char} (hc : c ∉ blanks) (h : Segments spells (c :: l) segs) :
    ∃ n m seg segs', c :: l = n ++ m ∧ SegmentText spells n seg ∧ Segments spells m segs' ∧
      segs = seg :: segs' := by
  generalize he : c :: l = k at h
  cases h
  case nil => simp at he
  case cons s n m seg segs' hs hn hm =>
    cases s
    case nil => exact ⟨n, m, seg, segs', rfl, hn, hm, rfl⟩
    case cons b s =>
      obtain rfl := (List.cons.inj he).left
      exact absurd (hs _ List.mem_cons_self) hc

theorem Segments.unique_bracketed (hl : Sole spells l sel)
    (h : Segments spells ('[' :: l ++ ']' :: x) segs) :
    ∃ segs', segs = .child [sel] :: segs' ∧ Segments spells x segs' := by
  obtain ⟨n, m, seg, segs', he, hn, hm, rfl⟩ := h.cons_inv (by decide)
  obtain ⟨rfl, rfl⟩ := hn.unique_bracketed hl he
  exact ⟨segs', rfl, hm⟩

theorem Segments.unique_name (hl : Shorthand l) (hx : ∀ c ∈ x.head?, ¬NameChar c)
    (h : Segments spells ('.' :: l ++ x) segs) :
    ∃ segs', segs = .child [.name (.ofList l)] :: segs' ∧ Segments spells x segs' := by
  obtain ⟨n, m, seg, segs', he, hn, hm, rfl⟩ := h.cons_inv (by decide)
  obtain ⟨rfl, rfl⟩ := hn.unique_name hl hx hm.head he
  exact ⟨segs', rfl, hm⟩

end
end JsonPath
