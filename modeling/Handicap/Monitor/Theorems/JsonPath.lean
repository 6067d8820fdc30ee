import Handicap.Library.JsonPathText
import Handicap.Monitor.JsonPath

-- The simple paths are those of a small grammar, and no node is selected twice by one of them.
namespace Monitor

open JsonPath (Shorthand NameFirst NameChar)

-- A name or a text after its opening quotation mark, with the closing one.
inductive Quoted (quote : Char) : List Char → Prop
  | close : Quoted quote [quote]
  | char {c : Char} {l : List Char} : c ≠ '\\' → c ≠ quote → Quoted quote l → Quoted quote (c :: l)
  | escape {c : Char} {l : List Char} : Quoted quote l → Quoted quote ('\\' :: c :: l)

inductive Bracket : List Char → Prop
  | quoted {q : Char} {l : List Char} : q = '\'' ∨ q = '"' → Quoted q l → Bracket (q :: l)
  | digits {l : List Char} : l ≠ [] → (∀ c ∈ l, c.isDigit) → Bracket l
  | negative {l : List Char} : l ≠ [] → (∀ c ∈ l, c.isDigit) → Bracket ('-' :: l)
  | star : Bracket ['*']

-- What a segment consists of after its dots.
inductive NameOrStar : List Char → Prop
  | name {l : List Char} : Shorthand l → NameOrStar l
  | star : NameOrStar ['*']

-- A segment, and whether it descends.
inductive Segment : Bool → List Char → Prop
  | member {l : List Char} : NameOrStar l → Segment false ('.' :: l)
  | bracket {l : List Char} : Bracket l → Segment false ('[' :: l ++ [']'])
  | descendant {l : List Char} : NameOrStar l → Segment true ('.' :: '.' :: l)
  | descendantBracket {l : List Char} : Bracket l → Segment true ('.' :: '.' :: '[' :: l ++ [']'])

-- At most one segment of a path descends.
def Path (path : List Char) : Prop :=
  ∃ segments : List (Bool × List Char), path = '$' :: (segments.map Prod.snd).flatten ∧
    (∀ s ∈ segments, Segment s.1 s.2) ∧ segments.countP Prod.fst ≤ 1

variable {c q : Char} {l m rest : List Char}

theorem isNameFirst_iff : isNameFirst c ↔ NameFirst c := by
  simp [isNameFirst, NameFirst, or_assoc]

theorem nameChar_iff : (isNameFirst c || c.isDigit) ↔ NameChar c := by
  rw [Bool.or_eq_true, isNameFirst_iff]
  rfl

theorem closed_eq_some : closed l = some rest ↔ l = ']' :: rest := by
  unfold closed
  split
  case h_1 => simp
  case h_2 h => simpa using h rest

theorem simpleQuoted_cons (h : c ≠ '\\') :
    simpleQuoted q (c :: l) = if c = q then some l else simpleQuoted q l := by
  rw [simpleQuoted]
  case x_1 => exact fun hc _ => h hc
  case x_2 => exact fun _ _ hc _ => h hc

theorem quoted_of_simpleQuoted (h : simpleQuoted q l = some rest) :
    ∃ b, Quoted q b ∧ l = b ++ rest := by
  induction l using simpleQuoted.induct q
  case case1 => simp [simpleQuoted] at h
  case case2 => simp [simpleQuoted] at h
  case case3 l ih =>
    rw [simpleQuoted] at h
    obtain ⟨b, hb, rfl⟩ := ih h
    exact ⟨_, .escape hb, rfl⟩
  case case4 l h₁ h₂ =>
    have hq : q ≠ '\\' := by
      rintro rfl
      cases l
      case nil => exact h₁ rfl rfl
      case cons => exact h₂ _ _ rfl rfl
    rw [simpleQuoted_cons hq, if_pos rfl] at h
    obtain rfl := Option.some.inj h
    exact ⟨[q], .close, rfl⟩
  case case5 c l h₁ h₂ hcq ih =>
    have hc : c ≠ '\\' := by
      rintro rfl
      cases l
      case nil => exact h₁ rfl rfl
      case cons => exact h₂ _ _ rfl rfl
    rw [simpleQuoted_cons hc, if_neg hcq] at h
    obtain ⟨b, hb, rfl⟩ := ih h
    exact ⟨c :: b, .char hc hcq hb, rfl⟩

theorem simpleQuoted_of_quoted (hq : q ≠ '\\') (h : Quoted q l) :
    simpleQuoted q (l ++ rest) = some rest := by
  induction h
  case close => rw [List.cons_append, simpleQuoted_cons hq, if_pos rfl, List.nil_append]
  case char hc hcq _ ih => rw [List.cons_append, simpleQuoted_cons hc, if_neg hcq, ih]
  case escape _ ih => rw [List.cons_append, List.cons_append, simpleQuoted, ih]

theorem takeWhile_digits (h : ∀ c ∈ l, c.isDigit) (hr : ∀ c ∈ rest.head?, ¬c.isDigit) :
    (l ++ rest).takeWhile Char.isDigit = l := by
  rw [List.takeWhile_append_of_pos h]
  cases rest
  case nil => simp
  case cons c rest => simpa using hr c rfl

-- Digits and what follows them.
theorem simpleBracket_digits (hl : l ≠ []) (h : ∀ c ∈ l, c.isDigit)
    (hr : ∀ c ∈ rest.head?, ¬c.isDigit) : simpleBracket (l ++ rest) = closed rest := by
  cases l
  case nil => contradiction
  case cons c l =>
    obtain ⟨hc, hl⟩ := List.forall_mem_cons.mp h
    have h₁ : c ≠ '*' := by rintro rfl; simp at hc
    have h₂ : ¬(c = '\'' ∨ c = '"') := by rintro (rfl | rfl) <;> simp at hc
    have h₃ : c ≠ '-' := by rintro rfl; simp at hc
    rw [List.cons_append, simpleBracket, if_neg h₁, if_neg h₂, if_pos (.inr hc)]
    dsimp only
    rw [takeWhile_digits hl hr, if_neg (fun hn => h₃ hn.left), List.drop_left]

theorem simpleBracket_negative (hl : l ≠ []) (h : ∀ c ∈ l, c.isDigit)
    (hr : ∀ c ∈ rest.head?, ¬c.isDigit) : simpleBracket ('-' :: l ++ rest) = closed rest := by
  rw [List.cons_append, simpleBracket, if_neg (by decide), if_neg (by decide),
    if_pos (.inl rfl)]
  dsimp only
  rw [takeWhile_digits h hr, if_neg (fun hn => hl hn.right), List.drop_left]

theorem simpleBracket_iff :
    simpleBracket l = some rest ↔ ∃ b, Bracket b ∧ l = b ++ ']' :: rest := by
  constructor
  case mp =>
    intro h
    cases l
    case nil => simp [simpleBracket] at h
    case cons c l =>
      rw [simpleBracket] at h
      split at h
      case isTrue hs =>
        exact ⟨['*'], .star, by rw [hs, closed_eq_some.1 h]; rfl⟩
      case isFalse =>
        split at h
        case isTrue hq =>
          obtain ⟨m, hm, hc⟩ := Option.bind_eq_some_iff.mp h
          obtain ⟨b, hb, rfl⟩ := quoted_of_simpleQuoted hm
          exact ⟨c :: b, .quoted hq hb, by rw [closed_eq_some.1 hc]; rfl⟩
        case isFalse =>
          split at h
          case isFalse => simp at h
          case isTrue hd =>
            dsimp only at h
            split at h
            case isTrue => simp at h
            case isFalse hn =>
              have hl := List.prefix_iff_eq_append.mp (List.takeWhile_prefix (l := l) Char.isDigit)
              have ha : ∀ d ∈ l.takeWhile Char.isDigit, d.isDigit := fun _ =>
                List.mem_takeWhile_imp
              rw [closed_eq_some.1 h] at hl
              rw [← hl]
              cases hd
              case inl hc =>
                subst hc
                exact ⟨_, .negative (fun h => hn ⟨rfl, h⟩) ha, rfl⟩
              case inr hc =>
                exact ⟨_, .digits (List.cons_ne_nil c _) (List.forall_mem_cons.mpr ⟨hc, ha⟩), rfl⟩
  case mpr =>
    rintro ⟨b, hb, rfl⟩
    cases hb
    case quoted q l hq hl =>
      have hne : q ≠ '\\' := by rintro rfl; simp at hq
      have hs : q ≠ '*' := by rintro rfl; simp at hq
      rw [List.cons_append, simpleBracket, if_neg hs, if_pos hq, simpleQuoted_of_quoted hne hl]
      rfl
    case digits hl hd => rw [simpleBracket_digits hl hd (by simp)]; rfl
    case negative l hl hd => rw [simpleBracket_negative hl hd (by simp)]; rfl
    case star => rfl

theorem simpleName_eq_some (h : simpleName c l = some rest) :
    ∃ n, Shorthand (c :: n) ∧ l = n ++ rest := by
  obtain ⟨hc, hr⟩ := Option.ite_none_right_eq_some.mp h
  obtain rfl := Option.some.inj hr
  refine ⟨_, .mk (isNameFirst_iff.1 hc) fun d hd => ?_, List.takeWhile_append_dropWhile.symm⟩
  exact nameChar_iff.1 (List.mem_takeWhile_imp (p := fun c => isNameFirst c || c.isDigit) hd)

theorem simpleName_of_shorthand (h : Shorthand (c :: l)) (hr : ∀ d ∈ rest.head?, ¬NameChar d) :
    simpleName c (l ++ rest) = some rest := by
  cases h
  case mk hc hl =>
    rw [simpleName, if_pos (isNameFirst_iff.2 hc),
      List.dropWhile_append_of_pos fun d hd => nameChar_iff.2 (hl d hd)]
    cases rest
    case nil => rfl
    case cons d rest =>
      have hd := mt nameChar_iff.1 (hr d rfl)
      exact congrArg some
        (List.dropWhile_cons_of_neg (p := fun c => isNameFirst c || c.isDigit) hd)

theorem simpleMember_eq_some (h : simpleMember l = some rest) : ∃ n, NameOrStar n ∧ l = n ++ rest := by
  unfold simpleMember at h
  split at h
  case h_1 => simp at h
  case h_2 l => exact ⟨['*'], .star, by rw [Option.some.inj h]; rfl⟩
  case h_3 c l _ =>
    obtain ⟨n, hn, rfl⟩ := simpleName_eq_some h
    exact ⟨c :: n, .name hn, rfl⟩

theorem nameFirst_ne_star (h : NameFirst c) : c ≠ '*' := by
  rintro rfl
  simp [NameFirst] at h

theorem nameFirst_ne_bracket (h : NameFirst c) : c ≠ '[' := by
  rintro rfl
  simp [NameFirst] at h

theorem nameFirst_ne_dot (h : NameFirst c) : c ≠ '.' := by
  rintro rfl
  simp [NameFirst] at h

theorem simpleMember_of_member (h : NameOrStar l) (hr : ∀ d ∈ rest.head?, ¬NameChar d) :
    simpleMember (l ++ rest) = some rest := by
  cases h
  case star => rfl
  case name h =>
    have hs := h
    cases h
    case mk c l hc _ =>
      rw [List.cons_append, simpleMember, simpleName_of_shorthand hs hr]
      exact fun h => nameFirst_ne_star hc h

theorem map_getD_iff {o : Option (List Char)} {f : List Char → Bool} :
    (o.map f).getD false ↔ ∃ rest, o = some rest ∧ f rest := by
  cases o <;> simp

-- What a descending segment consists of after its dots.
theorem simpleDescendant_eq_some (h : simpleDescendant l = some rest) :
    ∃ n, Segment true ('.' :: '.' :: n) ∧ l = n ++ rest := by
  unfold simpleDescendant at h
  split at h
  case h_1 l =>
    obtain ⟨b, hb, rfl⟩ := simpleBracket_iff.1 h
    exact ⟨_, .descendantBracket hb, by simp⟩
  case h_2 =>
    obtain ⟨n, hn, rfl⟩ := simpleMember_eq_some h
    exact ⟨n, .descendant hn, rfl⟩

theorem member_head (h : NameOrStar l) : ∀ d ∈ (l ++ rest).head?, d ≠ '.' ∧ d ≠ '[' := by
  cases h
  case star => simp
  case name h =>
    cases h
    case mk c l hc _ =>
      rintro d ⟨⟩
      exact ⟨nameFirst_ne_dot hc, nameFirst_ne_bracket hc⟩

theorem simpleDescendant_of_member (h : NameOrStar l) (hr : ∀ d ∈ rest.head?, ¬NameChar d) :
    simpleDescendant (l ++ rest) = some rest := by
  rw [← simpleMember_of_member h hr, simpleDescendant]
  intro m he
  exact (member_head h '[' (by rw [he]; rfl)).right rfl

section

variable {fuel : ℕ} {d e : Bool}

theorem simpleSegments_descendant : simpleSegments (fuel + 1) d ('.' :: '.' :: l) ↔
    d = false ∧ ∃ rest, simpleDescendant l = some rest ∧ simpleSegments fuel true rest := by
  change (!d && ((simpleDescendant l).map (simpleSegments fuel true)).getD false) ↔ _
  rw [Bool.and_eq_true, map_getD_iff, Bool.not_eq_true']

theorem simpleSegments_member (h : l.head? ≠ some '.') :
    simpleSegments (fuel + 1) d ('.' :: l) ↔
      ∃ rest, simpleMember l = some rest ∧ simpleSegments fuel d rest := by
  rw [simpleSegments, map_getD_iff]
  rintro m rfl
  exact h rfl

theorem simpleSegments_bracket : simpleSegments (fuel + 1) d ('[' :: l) ↔
    ∃ rest, simpleBracket l = some rest ∧ simpleSegments fuel d rest :=
  map_getD_iff

-- A segment comes first, and at most one descends.
theorem simpleSegments_cons (h : simpleSegments fuel d (c :: l)) : ∃ e n rest fuel',
    fuel = fuel' + 1 ∧ c :: l = n ++ rest ∧ Segment e n ∧ (d && e) = false ∧
      simpleSegments fuel' (d || e) rest := by
  cases fuel
  case zero => cases h
  case succ fuel =>
    by_cases hc : c = '.'
    case pos =>
      subst hc
      by_cases hl : l.head? = some '.'
      case pos =>
        obtain ⟨m, rfl⟩ := List.head?_eq_some_iff.mp hl
        obtain ⟨rfl, rest, hr, hs⟩ := simpleSegments_descendant.1 h
        obtain ⟨n, hn, rfl⟩ := simpleDescendant_eq_some hr
        exact ⟨true, _, rest, fuel, rfl, rfl, hn, rfl, hs⟩
      case neg =>
        obtain ⟨rest, hr, hs⟩ := (simpleSegments_member hl).mp h
        obtain ⟨n, hn, rfl⟩ := simpleMember_eq_some hr
        exact ⟨false, _, rest, fuel, rfl, rfl, .member hn, by simp, by simpa using hs⟩
    case neg =>
      by_cases hb : c = '['
      case pos =>
        subst hb
        obtain ⟨rest, hr, hs⟩ := simpleSegments_bracket.1 h
        obtain ⟨b, hb, rfl⟩ := simpleBracket_iff.1 hr
        exact ⟨false, _, rest, fuel, rfl, by simp, .bracket hb, by simp, by simpa using hs⟩
      case neg => simp [simpleSegments, hc, hb] at h

theorem segments_of_simpleSegments (h : simpleSegments fuel d l) :
    ∃ segments : List (Bool × List Char), l = (segments.map Prod.snd).flatten ∧
      (∀ s ∈ segments, Segment s.1 s.2) ∧ segments.countP Prod.fst + d.toNat ≤ 1 := by
  induction fuel generalizing d l
  case zero =>
    cases l
    case nil => exact ⟨[], rfl, by simp, by cases d <;> simp⟩
    case cons => cases h
  case succ fuel ih =>
    cases l
    case nil => exact ⟨[], rfl, by simp, by cases d <;> simp⟩
    case cons c l =>
      obtain ⟨e, n, rest, fuel', hf, he, hn, hde, h⟩ := simpleSegments_cons h
      obtain rfl := Nat.succ.inj hf
      obtain ⟨segments, rfl, hs, hc⟩ := ih h
      refine ⟨(e, n) :: segments, he, List.forall_mem_cons.mpr ⟨hn, hs⟩, ?_⟩
      rw [List.countP_cons]
      cases d <;> cases e <;> simp at hde hc ⊢ <;> omega

-- After a segment comes another one or the end.
theorem segments_head {segments : List (Bool × List Char)}
    (h : ∀ s ∈ segments, Segment s.1 s.2) :
    ∀ d ∈ (segments.map Prod.snd).flatten.head?, ¬NameChar d := by
  cases segments
  case nil => simp
  case cons s segments =>
    have hs := h s List.mem_cons_self
    obtain ⟨e, n⟩ := s
    cases hs <;> simp [NameChar, NameFirst]

theorem simpleSegments_of_segments {segments : List (Bool × List Char)}
    (hs : ∀ s ∈ segments, Segment s.1 s.2) (hc : segments.countP Prod.fst + d.toNat ≤ 1)
    (hf : (segments.map Prod.snd).flatten.length ≤ fuel) :
    simpleSegments fuel d (segments.map Prod.snd).flatten := by
  induction segments generalizing fuel d
  case nil => cases fuel <;> rfl
  case cons s segments ih =>
    obtain ⟨hn, hsegs⟩ := List.forall_mem_cons.mp hs
    have hr := segments_head hsegs
    obtain ⟨e, n⟩ := s
    rw [List.map_cons, List.flatten_cons] at hf ⊢
    rw [List.length_append] at hf
    rw [List.countP_cons] at hc
    dsimp only at hf hc ⊢
    obtain ⟨fuel, rfl, hle⟩ : ∃ fuel', fuel = fuel' + 1 ∧
        (segments.map Prod.snd).flatten.length ≤ fuel' := by
      have hpos : 0 < n.length := by cases hn <;> simp
      exact ⟨fuel - 1, by omega, by omega⟩
    cases hn
    case member n hn =>
      have hd : (n ++ (segments.map Prod.snd).flatten).head? ≠ some '.' := fun h =>
        (member_head hn '.' h).left rfl
      exact (simpleSegments_member hd).mpr
        ⟨_, simpleMember_of_member hn hr, ih hsegs (by simpa using hc) hle⟩
    case bracket b hb =>
      refine simpleSegments_bracket.2
        ⟨_, simpleBracket_iff.2 ⟨b, hb, ?_⟩, ih hsegs (by simpa using hc) hle⟩
      simp
    case descendant n hn =>
      rw [if_pos rfl] at hc
      refine simpleSegments_descendant.2
        ⟨?_, _, simpleDescendant_of_member hn hr, ih hsegs ?_ hle⟩
      case refine_1 => exact Bool.toNat_eq_zero.mp (by omega)
      case refine_2 => rw [Bool.toNat_true]; omega
    case descendantBracket b hb =>
      rw [if_pos rfl] at hc
      refine simpleSegments_descendant.2
        ⟨?_, _, simpleBracket_iff.2 ⟨b, hb, ?_⟩, ih hsegs ?_ hle⟩
      case refine_1 => exact Bool.toNat_eq_zero.mp (by omega)
      case refine_2 => simp
      case refine_3 => rw [Bool.toNat_true]; omega

theorem jsonpathIsSimple_iff (path : String) : jsonpathIsSimple path ↔ Path path.toList := by
  unfold jsonpathIsSimple
  constructor
  case mp =>
    intro h
    split at h
    case h_1 l he =>
      obtain ⟨segments, rfl, hs, hc⟩ := segments_of_simpleSegments h
      exact ⟨segments, he, hs, by simpa using hc⟩
    case h_2 => simp at h
  case mpr =>
    rintro ⟨segments, he, hs, hc⟩
    rw [he]
    exact simpleSegments_of_segments hs (by simpa using hc) le_rfl

end

-- A simple path that is a query has one selector in every segment.
section

open JsonPath (Blank Literal Number Bound Spells More Bracketed SegmentText Segments blank_head
  more_not_isDigit not_isDigit_of_blank)

variable {φ : Type*} {spells : List Char → φ → Prop} {i : ℤ} {sel : JsonPath.Selector φ}
  {sels : List (JsonPath.Selector φ)} {seg : JsonPath.Segment φ} {segs : List (JsonPath.Segment φ)}
  {s t u : List Char} {fuel : ℕ} {d : Bool}

theorem Quoted.append (h : ∀ c ∈ u, c ≠ '\\' ∧ c ≠ q) (hl : Quoted q l) : Quoted q (u ++ l) := by
  induction u
  case nil => exact hl
  case cons c u ih =>
    obtain ⟨⟨hc, hcq⟩, hu⟩ := List.forall_mem_cons.mp h
    exact .char hc hcq (ih hu)

theorem hexDigit_ne (hq : q = '\'' ∨ q = '"') (h : (JsonPath.hexDigit c).isSome) :
    c ≠ '\\' ∧ c ≠ q := by
  constructor
  case left =>
    rintro rfl
    exact absurd h (by decide)
  case right =>
    rintro rfl
    obtain rfl | rfl := hq <;> exact absurd h (by decide)

theorem hexCode_ne {n : ℕ} (hq : q = '\'' ∨ q = '"') (h : JsonPath.hexCode u = some n) :
    ∀ c ∈ u, c ≠ '\\' ∧ c ≠ q := by
  unfold JsonPath.hexCode at h
  split at h
  case h_1 a b c d =>
    obtain ⟨_, ha, h⟩ := Option.bind_eq_some_iff.mp h
    obtain ⟨_, hb, h⟩ := Option.bind_eq_some_iff.mp h
    obtain ⟨_, hc, h⟩ := Option.bind_eq_some_iff.mp h
    obtain ⟨_, hd, -⟩ := Option.bind_eq_some_iff.mp h
    simp only [List.forall_mem_cons]
    exact ⟨hexDigit_ne hq (by simp [ha]), hexDigit_ne hq (by simp [hb]),
      hexDigit_ne hq (by simp [hc]), hexDigit_ne hq (by simp [hd]), by simp⟩
  case h_2 => simp at h

theorem quoted_of_literal (hq : q = '\'' ∨ q = '"') (h : Literal q l m) : Quoted q (l ++ [q]) := by
  induction h
  case nil => exact .close
  case unescaped hc he _ ih => exact .char he hc ih
  case quote _ ih => exact .escape ih
  case escaped _ _ ih => exact .escape ih
  case code hn _ _ ih =>
    rw [List.append_assoc]
    exact .escape (ih.append (hexCode_ne hq hn))
  case surrogates hn hk _ _ _ _ _ ih =>
    simp only [List.append_assoc, List.cons_append]
    exact .escape (.append (hexCode_ne hq hn) (.escape (ih.append (hexCode_ne hq hk))))

theorem simpleBracket_number (h : Number l i) (hr : ∀ c ∈ rest.head?, ¬c.isDigit) :
    simpleBracket (l ++ rest) = closed rest := by
  cases h
  case zero => exact simpleBracket_digits (by simp) (by simp) hr
  case pos hc _ hl =>
    exact simpleBracket_digits (by simp) (List.forall_mem_cons.mpr ⟨hc, hl⟩) hr
  case neg hc _ hl =>
    exact simpleBracket_negative (by simp) (List.forall_mem_cons.mpr ⟨hc, hl⟩) hr

theorem simpleBracket_eq_none (h : ∀ c ∈ l.head?, c ∈ JsonPath.blanks ∨ c = '?' ∨ c = ':') :
    simpleBracket l = none := by
  cases l
  case nil => rfl
  case cons c l =>
    have hc := h c rfl
    simp only [JsonPath.blanks, List.mem_cons, List.not_mem_nil, or_false] at hc
    obtain (rfl | rfl | rfl | rfl) | rfl | rfl := hc <;> rfl

theorem closed_head (h : closed l = some rest) : l.head? = some ']' := by
  rw [closed_eq_some.1 h]
  rfl

-- The one selector that may stand in the brackets of a simple path.
theorem closed_of_spells (hl : Spells spells l sel) (h : simpleBracket (l ++ m) = some rest)
    (hm : ∀ c ∈ m.head?, ¬c.isDigit) : closed m = some rest := by
  cases hl
  case name q l _ hq hl =>
    have hs : q ≠ '*' := by rintro rfl; simp at hq
    have hne : q ≠ '\\' := by rintro rfl; simp at hq
    rw [List.cons_append, List.cons_append, simpleBracket, if_neg hs, if_pos hq,
      simpleQuoted_of_quoted hne (quoted_of_literal hq hl)] at h
    exact h
  case wildcard => exact h
  case index hl => rwa [simpleBracket_number hl hm] at h
  case filter =>
    rw [simpleBracket_eq_none (by simp)] at h
    simp at h
  case slice n s m' k a b c ha hs _ _ =>
    cases ha
    case absent =>
      rw [simpleBracket_eq_none (by simp)] at h
      simp at h
    case given n s' i hn hs' =>
      have hd : ∀ c ∈ (s' ++ ':' :: (s ++ m' ++ k ++ m)).head?, c ∈ JsonPath.blanks ∨ c = ':' := by
        intro c hc
        obtain hb | hb := blank_head hs' hc
        case inl => exact .inl hb
        case inr => exact .inr (by simpa [eq_comm] using hb)
      have hnd : ∀ c ∈ (s' ++ ':' :: (s ++ m' ++ k ++ m)).head?, ¬c.isDigit := by
        intro c hc
        obtain hb | rfl := hd c hc
        case inl => exact not_isDigit_of_blank hb
        case inr => decide
      have he : n ++ s' ++ ':' :: s ++ m' ++ k ++ m = n ++ (s' ++ ':' :: (s ++ m' ++ k ++ m)) := by
        simp
      rw [he, simpleBracket_number hn hnd] at h
      have hb := hd ']' (closed_head h)
      simp [JsonPath.blanks] at hb

theorem bracketed_simple (hb : Bracketed spells l sels) : ∃ n, l = '[' :: n ∧ ∀ rest,
    simpleBracket (n ++ u) = some rest → (∃ sel, sels = [sel]) ∧ rest = u := by
  cases hb
  case mk s t l m sel sels hs ht hl hm =>
    refine ⟨s ++ l ++ m ++ t ++ [']'], by simp, fun rest h => ?_⟩
    have he : s ++ l ++ m ++ t ++ [']'] ++ u = s ++ (l ++ (m ++ t ++ ']' :: u)) := by simp
    rw [he] at h
    cases s
    case cons b s =>
      rw [simpleBracket_eq_none fun c hc => .inl (hs c (by simp_all))] at h
      simp at h
    case nil =>
      have hc := closed_of_spells hl h (more_not_isDigit hm ht)
      obtain ⟨rfl, rfl⟩ := hm.closed ht (closed_eq_some.1 hc)
      exact ⟨⟨sel, rfl⟩, rfl⟩

theorem simpleSegments_head (h : simpleSegments fuel d (c :: l)) : c = '.' ∨ c = '[' := by
  by_contra hc
  obtain ⟨hd, hb⟩ := not_or.mp hc
  cases fuel <;> simp [simpleSegments, hd, hb] at h

-- A segment of a query is a segment of the simple path.
theorem segmentText_simple (hs : SegmentText spells l seg) (hm : ∀ c ∈ m.head?, ¬NameChar c)
    (h : simpleSegments fuel d (l ++ m)) : (∃ sel, seg.selectors = [sel]) ∧
      (d && seg.descends) = false ∧ ∃ fuel', simpleSegments fuel' (d || seg.descends) m := by
  cases fuel
  case zero =>
    cases hs
    case bracketed hb =>
      obtain ⟨n, rfl, -⟩ := bracketed_simple (u := m) hb
      simp [simpleSegments] at h
    all_goals simp [simpleSegments] at h
  case succ fuel =>
    have hmember {n : List Char} (hn : NameOrStar n)
        (h : simpleSegments (fuel + 1) d ('.' :: n ++ m)) :
        simpleSegments fuel d m := by
      have hd : (n ++ m).head? ≠ some '.' := fun he => (member_head hn '.' he).left rfl
      rw [List.cons_append] at h
      obtain ⟨r, hr, hs⟩ := (simpleSegments_member hd).mp h
      rw [simpleMember_of_member hn hm] at hr
      rwa [← Option.some.inj hr] at hs
    have hdesc {n : List Char} (hn : NameOrStar n)
        (h : simpleSegments (fuel + 1) d ('.' :: '.' :: n ++ m)) :
        d = false ∧ simpleSegments fuel true m := by
      rw [List.cons_append, List.cons_append] at h
      obtain ⟨hd, r, hr, hs⟩ := simpleSegments_descendant.1 h
      rw [simpleDescendant_of_member hn hm] at hr
      rw [← Option.some.inj hr] at hs
      exact ⟨hd, hs⟩
    cases hs
    case name hl =>
      exact ⟨⟨_, rfl⟩, by simp [JsonPath.Segment.descends],
        fuel, by simpa [JsonPath.Segment.descends] using hmember (.name hl) h⟩
    case wildcard =>
      exact ⟨⟨_, rfl⟩, by simp [JsonPath.Segment.descends],
        fuel, by simpa [JsonPath.Segment.descends] using hmember .star h⟩
    case bracketed hb =>
      obtain ⟨n, rfl, hn⟩ := bracketed_simple (u := m) hb
      rw [List.cons_append] at h
      obtain ⟨r, hr, hs⟩ := simpleSegments_bracket.1 h
      obtain ⟨hsel, rfl⟩ := hn r hr
      exact ⟨hsel, by simp [JsonPath.Segment.descends],
        fuel, by simpa [JsonPath.Segment.descends] using hs⟩
    case descendantName hl =>
      obtain ⟨rfl, hs⟩ := hdesc (.name hl) h
      exact ⟨⟨_, rfl⟩, rfl, fuel, hs⟩
    case descendantWildcard =>
      obtain ⟨rfl, hs⟩ := hdesc .star h
      exact ⟨⟨_, rfl⟩, rfl, fuel, hs⟩
    case descendantBracketed hb =>
      obtain ⟨n, rfl, hn⟩ := bracketed_simple (u := m) hb
      rw [List.cons_append, List.cons_append, List.cons_append] at h
      obtain ⟨rfl, r, hr, hs⟩ := simpleSegments_descendant.1 h
      obtain ⟨hsel, rfl⟩ := hn r hr
      exact ⟨hsel, rfl, fuel, hs⟩

theorem segments_simple (hq : Segments spells l segs) (h : simpleSegments fuel d l) :
    JsonPath.Single segs ∧ segs.countP JsonPath.Segment.descends + d.toNat ≤ 1 := by
  induction hq generalizing fuel d
  case nil => exact ⟨by simp [JsonPath.Single], by cases d <;> simp⟩
  case cons s l m seg segs hs hl hm ih =>
    cases s
    case cons b s =>
      have hb := hs b List.mem_cons_self
      obtain rfl | rfl := simpleSegments_head h <;> exact absurd hb (by decide)
    case nil =>
      obtain ⟨hsel, hd, fuel, h⟩ := segmentText_simple hl hm.head h
      obtain ⟨hsingle, hc⟩ := ih h
      refine ⟨List.forall_mem_cons.mpr ⟨hsel, hsingle⟩, ?_⟩
      rw [List.countP_cons]
      cases d <;> cases hs : seg.descends <;> simp [hs] at hd hc ⊢ <;> omega

theorem nodelist_of_simple {α : Type*} {holds : φ → JsonPath.Tree α → JsonPath.Tree α → Bool}
    {path : String} {root : JsonPath.Tree α} (hs : jsonpathIsSimple path)
    (hq : JsonPath.Query spells path.toList segs) :
    JsonPath.Distinct (JsonPath.nodelist holds root segs) ∧
      (JsonPath.nodelist holds root segs).length ≤ root.descendants.length := by
  unfold jsonpathIsSimple at hs
  generalize path.toList = l at hs hq
  cases hq
  case mk hq =>
    obtain ⟨hsingle, hc⟩ := segments_simple hq hs
    exact JsonPath.nodelist_distinct hsingle (by simpa using hc)

end

end Monitor
