import Handicap.Library.Pieces
import Handicap.Ui.KvBulk

open Text

namespace Ui

-- The characters that are escaped in a key or in a value.
def isStructural (isKey : Bool) (c : Char) : Bool :=
  c ∈ ['%', '+', '&', '\n'] || isKey && c = '='

def percent (c : Char) : List Char :=
  if c = '%' then "%25".toList
  else if c = '+' then "%2B".toList
  else if c = '&' then "%26".toList
  else if c = '\n' then "%0A".toList
  else if c = '=' then "%3D".toList
  else "%20".toList

-- A character, and whether it is escaped.
def piece (e : Bool × Char) : List Char :=
  if e.1 then percent e.2 else [e.2]

def mark (isKey : Bool) (c : Char) : Bool × Char :=
  (isStructural isKey c, c)

-- A character of a kind that is not escaped.
def isPlain (kind : Char → Bool) (e : Bool × Char) : Bool :=
  !e.1 && kind e.2

def isSpace (c : Char) : Bool :=
  c = ' '

def escaped (e : Bool × Char) : Bool × Char :=
  (true, e.2)

-- The spaces at the front are escaped as well, and those at the back.
def markFront (l : List (Bool × Char)) : List (Bool × Char) :=
  (l.takeWhile (isPlain isSpace)).map escaped ++ l.dropWhile (isPlain isSpace)

def markBack (l : List (Bool × Char)) : List (Bool × Char) :=
  l.rdropWhile (isPlain isSpace) ++ (l.rtakeWhile (isPlain isSpace)).map escaped

def marks (s : List Char) (isKey : Bool) : List (Bool × Char) :=
  markBack (markFront (s.map (mark isKey)))

section

variable {isKey : Bool} {s : List Char} {l : List (Bool × Char)} {e : Bool × Char} {c : Char}
  {kind : Char → Bool}

theorem percent_eq (c : Char) :
    ∃ a b, percent c = ['%', a, b] ∧ b ∈ ['5', 'B', '6', 'A', 'D', '0'] := by
  unfold percent
  split_ifs
  all_goals exact ⟨_, _, rfl, by decide⟩

theorem piecewise (hk : ∀ c ∈ ['%', '5', 'B', '6', 'A', 'D', '0'], ¬kind c) :
    Piecewise kind (isPlain kind) piece where
  stripped b hb a ha := by
    obtain ⟨_ | _, c⟩ := b
    case false =>
      obtain rfl := List.mem_singleton.mp ha
      simpa [isPlain] using hb
    case true => simp [isPlain] at hb
  front b hb := by
    obtain ⟨_ | _, c⟩ := b
    case false => exact ⟨c, [], rfl, by simpa [isPlain] using hb⟩
    case true =>
      obtain ⟨a, b, hp, -⟩ := percent_eq c
      exact ⟨'%', [a, b], hp, hk '%' (by decide)⟩
  back b hb := by
    obtain ⟨_ | _, c⟩ := b
    case false => exact ⟨c, [], rfl, by simpa [isPlain] using hb⟩
    case true =>
      obtain ⟨a, b, hp, hm⟩ := percent_eq c
      exact ⟨b, ['%', a], hp, hk b (List.mem_cons_of_mem _ hm)⟩

theorem spaces_piecewise : Piecewise isSpace (isPlain isSpace) piece :=
  piecewise (by simp [isSpace])

theorem white_piecewise : Piecewise isJsSpace (isPlain isJsSpace) piece :=
  piecewise (by simp [isJsSpace])

theorem replaceChar_flatMap {β : Type} {d : Char} {text : String} {f : β → List Char} (l : List β) :
    replaceChar d text (l.flatMap f) = l.flatMap fun b => replaceChar d text (f b) := by
  rw [replaceChar, List.flatMap_assoc]
  rfl

-- The replacements one after the other, of which none touches what those before have written.
def replaced (s : List Char) (isKey : Bool) : List Char :=
  let out := replaceChar '\n' "%0A" (replaceChar '&' "%26"
    (replaceChar '+' "%2B" (replaceChar '%' "%25" s)))
  if isKey then replaceChar '=' "%3D" out else out

theorem replaced_one (c : Char) (isKey : Bool) : replaced [c] isKey = piece (mark isKey c) := by
  by_cases hp : c = '%'
  case pos => subst hp; cases isKey <;> rfl
  case neg =>
    by_cases hs : c = '+' ∨ c = '&' ∨ c = '\n' ∨ c = '='
    case pos => obtain rfl | rfl | rfl | rfl := hs <;> cases isKey <;> rfl
    case neg =>
      simp only [not_or] at hs
      cases isKey <;>
        simp [replaced, replaceChar, piece, mark, isStructural, hp, hs]

theorem replaced_eq (s : List Char) (isKey : Bool) :
    replaced s isKey = (s.map (mark isKey)).flatMap piece := by
  have hs : s = s.flatMap fun c => [c] := by simp
  have ho : ∀ c, replaced [c] isKey = piece (mark isKey c) := fun c => replaced_one c isKey
  rw [List.flatMap_map]
  simp only [← ho]
  conv_lhs => rw [hs]
  cases isKey <;> simp only [replaced, replaceChar_flatMap, if_true, Bool.false_eq_true, if_false]

theorem escapeSpaces_eq {l : List (Bool × Char)} (h : ∀ e ∈ l, isPlain isSpace e) :
    escapeSpaces (l.flatMap piece) = (l.map escaped).flatMap piece := by
  induction l
  case nil => rfl
  case cons e l ih =>
    obtain ⟨he, hl⟩ := List.forall_mem_cons.mp h
    rw [List.map_cons, List.flatMap_cons, List.flatMap_cons, ← ih hl, escapeSpaces, escapeSpaces,
      List.flatMap_append]
    obtain ⟨_ | _, c⟩ := e
    case true => simp [isPlain] at he
    case false =>
      obtain rfl : c = ' ' := by simpa [isPlain, isSpace] using he
      rfl

theorem escapeFormToken_eq (s : List Char) (isKey : Bool) :
    escapeFormToken s isKey = (marks s isKey).flatMap piece := by
  have hfront {l : List (Bool × Char)} : escapeSpaces ((l.flatMap piece).takeWhile isSpace) ++
      (l.flatMap piece).dropWhile isSpace = (markFront l).flatMap piece := by
    rw [spaces_piecewise.takeWhile, spaces_piecewise.dropWhile, markFront, List.flatMap_append,
      escapeSpaces_eq fun e => List.mem_takeWhile_imp]
  have hback {l : List (Bool × Char)} : (l.flatMap piece).rdropWhile isSpace ++
      escapeSpaces ((l.flatMap piece).rtakeWhile isSpace) = (markBack l).flatMap piece := by
    rw [spaces_piecewise.rtakeWhile, spaces_piecewise.rdropWhile, markBack, List.flatMap_append,
      escapeSpaces_eq fun e => List.mem_rtakeWhile_imp]
  change (fun out : List Char => out.rdropWhile isSpace ++ escapeSpaces (out.rtakeWhile isSpace))
    (escapeSpaces ((replaced s isKey).takeWhile isSpace) ++
      (replaced s isKey).dropWhile isSpace) = _
  rw [replaced_eq, hfront]
  exact hback

theorem markBack_eq (l : List (Bool × Char)) : markBack l = (markFront l.reverse).reverse := by
  simp [markBack, markFront, List.rdropWhile, List.rtakeWhile]

theorem markFront_snd (l : List (Bool × Char)) : (markFront l).map Prod.snd = l.map Prod.snd := by
  have he : Prod.snd ∘ escaped = Prod.snd := rfl
  rw [markFront, List.map_append, List.map_map, he, ← List.map_append,
    List.takeWhile_append_dropWhile]

theorem marks_snd (s : List Char) (isKey : Bool) : (marks s isKey).map Prod.snd = s := by
  rw [marks, markBack_eq, List.map_reverse, markFront_snd, List.map_reverse, List.reverse_reverse,
    markFront_snd, List.map_map]
  exact List.map_id s

-- What is escaped can be, and what has to be is.
def Marked (isKey : Bool) (e : Bool × Char) : Prop :=
  if e.1 then e.2 ∈ ['%', '+', '&', '\n', '=', ' '] else ¬isStructural isKey e.2

theorem mark_marked (c : Char) : Marked isKey (mark isKey c) := by
  rw [Marked, mark]
  split_ifs with h
  case neg => exact h
  case pos =>
    simp only [isStructural, Bool.or_eq_true, Bool.and_eq_true, decide_eq_true_eq] at h
    simp only [List.mem_cons, List.not_mem_nil, or_false] at h ⊢
    tauto

theorem markFront_marked (h : ∀ e ∈ l, Marked isKey e) : ∀ e ∈ markFront l, Marked isKey e := by
  intro e he
  cases List.mem_append.mp he
  case inl he =>
    obtain ⟨d, hd, rfl⟩ := List.mem_map.mp he
    have hs := List.mem_takeWhile_imp hd
    simp only [isPlain, isSpace, Bool.and_eq_true, decide_eq_true_eq] at hs
    simp [Marked, escaped, hs.right]
  case inr he => exact h e ((List.dropWhile_suffix _).subset he)

theorem marks_marked : ∀ e ∈ marks s isKey, Marked isKey e := by
  have hm : ∀ e ∈ s.map (mark isKey), Marked isKey e :=
    List.forall_mem_map.mpr fun c _ => mark_marked c
  rw [marks, markBack_eq]
  intro e he
  refine markFront_marked (fun e he => ?_) e (List.mem_reverse.mp he)
  exact markFront_marked hm e (List.mem_reverse.mp he)

theorem head_markFront (h : e ∈ (markFront l).head?) : ¬isPlain isSpace e := by
  rw [markFront, List.head?_append, Option.mem_def, Option.or_eq_some_iff] at h
  obtain h | ⟨-, h⟩ := h
  case inl =>
    obtain ⟨e, -, rfl⟩ := List.mem_map.mp (List.mem_of_mem_head? h)
    simp [isPlain, escaped]
  case inr =>
    have hd := List.head?_dropWhile_not (isPlain isSpace) l
    rw [h] at hd
    simpa using hd

theorem getLast_markFront (hl : ∀ e ∈ l.getLast?, ¬isPlain isSpace e)
    (h : e ∈ (markFront l).getLast?) : ¬isPlain isSpace e := by
  rw [markFront, List.getLast?_append, Option.mem_def, Option.or_eq_some_iff] at h
  obtain h | ⟨-, h⟩ := h
  case inl =>
    refine hl e ?_
    rw [← List.takeWhile_append_dropWhile (p := isPlain isSpace) (l := l), List.getLast?_append, h]
    rfl
  case inr =>
    obtain ⟨e, -, rfl⟩ := List.mem_map.mp (List.mem_of_mem_getLast? h)
    simp [isPlain, escaped]

-- A space at an end is escaped.
theorem edges_marks (h : e ∈ edges (marks s isKey)) : ¬isPlain isSpace e := by
  rw [marks, markBack_eq] at h
  cases mem_edges.mp h
  case inl h =>
    rw [List.head?_reverse] at h
    refine getLast_markFront (fun e he => ?_) h
    rw [List.getLast?_reverse] at he
    exact head_markFront he
  case inr h =>
    rw [List.getLast?_reverse] at h
    exact head_markFront h

-- White space at an end of a text is lost, unless it is a space or a line feed.
def EdgesKept (s : List Char) : Prop :=
  ∀ c ∈ edges s, isJsSpace c → c = ' ' ∨ c = '\n'

-- What is read of a text that has been escaped.
def survives (s : List Char) (isKey : Bool) : List Char :=
  (strip (isPlain isJsSpace) (marks s isKey)).map Prod.snd

theorem edges_map {α β : Type} {f : α → β} {l : List α} : edges (l.map f) = (edges l).map f := by
  rw [edges, edges, List.head?_map, List.getLast?_map, List.map_append]
  cases l.head? <;> cases l.getLast? <;> rfl

theorem survives_edgesKept : EdgesKept (survives s isKey) := by
  intro c hc hs
  rw [survives, edges_map] at hc
  obtain ⟨e, he, rfl⟩ := List.mem_map.mp hc
  have hp := edges_strip he
  obtain ⟨front, back, heq, -⟩ := (strip_stripped (isPlain isJsSpace) (marks s isKey)).sides
  have hm : e ∈ marks s isKey := by
    rw [heq]
    simp [mem_of_mem_edges he]
  have hk := marks_marked e hm
  obtain ⟨_ | _, c⟩ := e
  case false => exact absurd hs (by simpa [isPlain] using hp)
  case true =>
    have hk : c ∈ ['%', '+', '&', '\n', '=', ' '] := hk
    simp only [List.mem_cons, List.not_mem_nil, or_false] at hk
    rcases hk with rfl | rfl | rfl | rfl | rfl | rfl
    case inr.inr.inr.inl => exact .inr rfl
    case inr.inr.inr.inr.inr => exact .inl rfl
    all_goals exact absurd hs (by decide)

theorem survives_eq (h : EdgesKept s) : survives s isKey = s := by
  have hs : strip (isPlain isJsSpace) (marks s isKey) = marks s isKey := by
    have he : ∀ e ∈ edges (marks s isKey), ¬isPlain isJsSpace e := by
      intro e he hp
      have hc : e.2 ∈ edges s := by
        rw [← marks_snd s isKey, edges_map]
        exact List.mem_map_of_mem he
      have hk := marks_marked e (mem_of_mem_edges he)
      obtain ⟨_ | _, c⟩ := e
      case true => simp [isPlain] at hp
      case false =>
        cases h c hc (by simpa [isPlain] using hp)
        case inl hc => exact edges_marks he (by simp [isPlain, isSpace, hc])
        case inr hc => exact absurd hk (by simp [Marked, isStructural, hc])
    exact Stripped.eq ⟨⟨[], [], by simp, by simp, by simp⟩,
      fun e hm => he e (mem_edges.mpr (.inl hm)), fun e hm => he e (mem_edges.mpr (.inr hm))⟩
  rw [survives, hs, marks_snd]

theorem percentBytes_cons {l : List Char} (h : c ≠ '%') :
    percentBytes (c :: l) = (percentBytes l).map (String.utf8EncodeChar c ++ ·) := by
  rw [percentBytes]
  case x_1 => exact fun _ _ _ hc _ => h hc
  rw [if_neg h]
  cases percentBytes l <;> rfl

-- The digits of an escape are those of the one byte of the character.
theorem percent_digits (h : c ∈ ['%', '+', '&', '\n', '=', ' ']) :
    ∃ a b x y, percent c = ['%', a, b] ∧ JsonPath.hexDigit a = some x ∧
      JsonPath.hexDigit b = some y ∧ String.utf8EncodeChar c = [.ofNat (x * 16 + y)] := by
  simp only [List.mem_cons, List.not_mem_nil, or_false] at h
  rcases h with rfl | rfl | rfl | rfl | rfl | rfl
  all_goals exact ⟨_, _, _, _, rfl, rfl, rfl, rfl⟩

theorem percentBytes_percent {l : List Char} (h : c ∈ ['%', '+', '&', '\n', '=', ' ']) :
    percentBytes (percent c ++ l) = (percentBytes l).map (String.utf8EncodeChar c ++ ·) := by
  obtain ⟨a, b, x, y, hp, ha, hb, hc⟩ := percent_digits h
  rw [hp, hc, List.cons_append, List.cons_append, List.cons_append, List.nil_append, percentBytes,
    ha, hb]
  cases percentBytes l <;> rfl

theorem percentBytes_pieces (h : ∀ e ∈ l, Marked isKey e) :
    percentBytes (l.flatMap piece) = some (Utf8.encode (l.map Prod.snd)) := by
  induction l
  case nil => rfl
  case cons e l ih =>
    obtain ⟨he, hl⟩ := List.forall_mem_cons.mp h
    rw [List.flatMap_cons, List.map_cons, Utf8.encode_cons]
    obtain ⟨_ | _, c⟩ := e
    case false =>
      have hp : c ≠ '%' := by
        rintro rfl
        exact absurd he (by simp [Marked, isStructural])
      have hc : piece (false, c) = [c] := rfl
      rw [hc, List.singleton_append, percentBytes_cons hp, ih hl]
      rfl
    case true =>
      have hc : piece (true, c) = percent c := rfl
      rw [hc, percentBytes_percent he, ih hl]
      rfl

-- What a piece is made of does not separate, and is not a plus sign.
theorem mem_piece (he : Marked isKey e) (h : c ∈ piece e) :
    c ≠ '+' ∧ c ≠ '&' ∧ c ≠ '\n' ∧ (isKey → c ≠ '=') := by
  obtain ⟨_ | _, d⟩ := e
  case false =>
    obtain rfl := List.mem_singleton.mp h
    have hs : ¬isStructural isKey c := he
    simp only [isStructural, List.mem_cons, List.not_mem_nil, or_false, Bool.or_eq_true,
      Bool.and_eq_true, decide_eq_true_eq, not_or, not_and] at hs
    exact ⟨hs.left.right.left, hs.left.right.right.left, hs.left.right.right.right, hs.right⟩
  case true =>
    have hm : c ∈ percent d := h
    have hall : ∀ d, ∀ c ∈ percent d, c ≠ '+' ∧ c ≠ '&' ∧ c ≠ '\n' ∧ c ≠ '=' := by
      intro d
      unfold percent
      split_ifs
      all_goals simp
    obtain ⟨h₁, h₂, h₃, h₄⟩ := hall d c hm
    exact ⟨h₁, h₂, h₃, fun _ => h₄⟩

theorem decodeFormToken_pieces (h : ∀ e ∈ l, Marked isKey e) :
    decodeFormToken (l.flatMap piece) = l.map Prod.snd := by
  have hp : ((l.flatMap piece).map fun c => if c = '+' then ' ' else c) = l.flatMap piece := by
    refine (List.map_congr_left fun c hc => ?_).trans (List.map_id _)
    obtain ⟨e, he, hm⟩ := List.mem_flatMap.mp hc
    exact if_neg (mem_piece (h e he) hm).left
  rw [decodeFormToken]
  simp only [hp, decodeURIComponent, percentBytes_pieces h, Option.bind_some, Utf8.decode_encode,
    Option.getD_some]

theorem escapeFormToken_mem (h : c ∈ escapeFormToken s isKey) :
    c ≠ '+' ∧ c ≠ '&' ∧ c ≠ '\n' ∧ (isKey → c ≠ '=') := by
  rw [escapeFormToken_eq] at h
  obtain ⟨e, he, hm⟩ := List.mem_flatMap.mp h
  exact mem_piece (marks_marked e he) hm

theorem decode_escaped :
    decodeFormToken (strip isJsSpace (escapeFormToken s isKey)) = survives s isKey := by
  have hm : ∀ e ∈ strip (isPlain isJsSpace) (marks s isKey), Marked isKey e := by
    intro e he
    obtain ⟨front, back, heq, -⟩ := (strip_stripped (isPlain isJsSpace) (marks s isKey)).sides
    have hm : e ∈ marks s isKey := by
      rw [heq]
      simp [he]
    exact marks_marked e hm
  rw [escapeFormToken_eq, white_piecewise.strip, decodeFormToken_pieces hm, survives]

end

section

variable {format : BulkFormat} {r : ParseResult} {key value : List Char} {k v : String}
  {l : List (String × String)}

theorem dropWhile_separated {α : Type} {p : α → Bool} {c : α} (h : ¬p c) (l m : List α) :
    (l ++ c :: m).dropWhile p = l.dropWhile p ++ c :: m := by
  rw [List.dropWhile_append]
  split_ifs with hl
  case pos => rw [List.isEmpty_iff.mp hl, List.dropWhile_cons_of_neg h, List.nil_append]
  case neg => rfl

theorem rdropWhile_separated {α : Type} {p : α → Bool} {c : α} (h : ¬p c) (l m : List α) :
    (l ++ c :: m).rdropWhile p = l ++ c :: m.rdropWhile p := by
  have hr : (l ++ c :: m).reverse = m.reverse ++ c :: l.reverse := by simp
  rw [List.rdropWhile, hr, dropWhile_separated h]
  simp [List.rdropWhile]

theorem separator_plain (format : BulkFormat) : ¬isJsSpace format.separator := by
  cases format <;> decide

-- A line is taken apart where it was put together.
theorem parsePair_line (hk : format.separator ∉ key) :
    parsePair format r (key ++ format.separator :: value) =
      putEntry r (format.read key, format.read value) := by
  have hs := separator_plain format
  have hline : strip isJsSpace (key ++ format.separator :: value) =
      key.dropWhile isJsSpace ++ format.separator :: value.rdropWhile isJsSpace := by
    rw [strip, dropWhile_separated hs, rdropWhile_separated hs]
  have hcut : cut [format.separator]
      (key.dropWhile isJsSpace ++ format.separator :: value.rdropWhile isJsSpace) =
        some (key.dropWhile isJsSpace, value.rdropWhile isJsSpace) :=
    cut_one.mpr ⟨rfl, fun hm => hk ((List.dropWhile_suffix _).subset hm)⟩
  have hkey : strip isJsSpace (key.dropWhile isJsSpace) = strip isJsSpace key := by
    have h := @strip_pad _ isJsSpace (key.dropWhile isJsSpace) (key.takeWhile isJsSpace) []
      (fun _ => List.mem_takeWhile_imp) (by simp)
    rwa [List.append_nil, List.takeWhile_append_dropWhile, eq_comm] at h
  have hvalue : strip isJsSpace (value.rdropWhile isJsSpace) = strip isJsSpace value := by
    have h := @strip_pad _ isJsSpace (value.rdropWhile isJsSpace) [] (value.rtakeWhile isJsSpace)
      (by simp) fun _ => List.mem_rtakeWhile_imp
    rwa [List.nil_append, List.rdropWhile_append_rtakeWhile, eq_comm] at h
  have hne : key.dropWhile isJsSpace ++ format.separator :: value.rdropWhile isJsSpace ≠ [] := by
    simp
  simp only [parsePair, BulkFormat.read, hline, if_neg hne, hcut, hkey, hvalue]

-- Lines in which no pair ends are pairs.
theorem splitOnP_lines {lines : List (List Char)} (hne : lines ≠ [])
    (h : ∀ line ∈ lines, ∀ c ∈ line, format.endsPair c = false) :
    (['\n'].intercalate lines).splitOnP format.endsPair = lines := by
  have hn : format.endsPair '\n' := by cases format <;> rfl
  induction lines
  case nil => exact absurd rfl hne
  case cons line lines ih =>
    obtain ⟨hl, hls⟩ := List.forall_mem_cons.mp h
    cases lines
    case nil =>
      rw [List.intercalate_singleton, List.splitOnP_eq_singleton hl]
    case cons line' lines =>
      rw [List.intercalate_cons_cons, List.append_assoc, List.singleton_append,
        List.splitOnP_append_cons_of_forall_mem hl _ hn, ih (List.cons_ne_nil _ _) hls]

theorem parseBulk_lines {lines : List (List Char)}
    (h : ∀ line ∈ lines, ∀ c ∈ line, format.endsPair c = false) :
    parseBulk (.ofList (['\n'].intercalate lines)) format =
      lines.foldl (parsePair format) ⟨∅, 0⟩ := by
  rw [parseBulk, String.toList_ofList]
  by_cases hne : lines = []
  case pos =>
    subst hne
    rfl
  case neg => rw [splitOnP_lines hne h]

-- What has been put has been among the entries, under another name than that of the prototype.
theorem lookup_put (h : (l.foldl putEntry r).entries.lookup k = some v) :
    r.entries.lookup k = some v ∨ k ≠ "__proto__" ∧ (k, v) ∈ l := by
  induction l generalizing r
  case nil => exact .inl h
  case cons e l ih =>
    obtain h | ⟨hk, hm⟩ := ih h
    case inr => exact .inr ⟨hk, List.mem_cons_of_mem _ hm⟩
    case inl =>
      unfold putEntry assign at h
      split_ifs at h with he hp
      case pos => exact .inl h
      case pos => exact .inl h
      case neg =>
        by_cases hk : k = e.1
        case neg => exact .inl ((AList.lookup_insert_ne hk).symm.trans h)
        case pos =>
          subst hk
          obtain rfl := Option.some.inj ((AList.lookup_insert _).symm.trans h)
          exact .inr ⟨hp, List.mem_cons_self⟩

-- Entries with distinct names are all put, but for one of the prototype.
theorem put_lookup (hn : (l.map Prod.fst).Nodup) (hk : ∀ e ∈ l, e.1 ≠ "" ∧ e.1 ≠ "__proto__")
    {e : String × String} (he : e ∈ l) :
    (l.foldl putEntry r).entries.lookup e.1 = some e.2 := by
  have ⟨hne, hp⟩ := hk e he
  let value (e : String × String) := if e.1 = "" ∨ e.1 = "__proto__" then none else some e.2
  refine @Table.lookup_foldl _ _ _ _ _ _ putEntry ParseResult.entries _ value ?_ r l hn e he ?_
  case refine_1 =>
    intro r e
    simp only [value, putEntry, assign]
    split_ifs <;> simp_all
  case refine_2 => exact if_neg (not_or.mpr ⟨hne, hp⟩)

theorem put_skipped (hk : ∀ e ∈ l, e.1 ≠ "") : (l.foldl putEntry r).skipped = r.skipped := by
  induction l generalizing r
  case nil => rfl
  case cons e l ih =>
    obtain ⟨he, hl⟩ := List.forall_mem_cons.mp hk
    rw [List.foldl_cons, ih hl, putEntry, if_neg he]

end

-- Whether a record that has been written is read again, with nothing skipped.
def Restores (format : BulkFormat) (record : Table String String) : Prop :=
  let r := parseBulk (formatEntries record format) format
  r.skipped = 0 ∧ ∀ k, r.entries.lookup k = record.lookup k

section

variable {format : BulkFormat} {record : Table String String}

-- What is read of the two sides of a pair.
def readEntry (format : BulkFormat) (e : String × String) : String × String :=
  match format with
  | .form   => (.ofList (survives e.1.toList true), .ofList (survives e.2.toList false))
  | .header => (.ofList (strip isJsSpace e.1.toList), .ofList (strip isJsSpace e.2.toList))

-- A pair that can be written to a line of its own.
def Writable (format : BulkFormat) (e : String × String) : Prop :=
  format = .header → ':' ∉ e.1.toList ∧ '\n' ∉ e.1.toList ∧ '\n' ∉ e.2.toList

theorem formatEntry_line {e : String × String} (h : Writable format e) :
    ∀ c ∈ formatEntry format e, format.endsPair c = false := by
  intro c hc
  cases format
  case form =>
    have hs : c ≠ '\n' ∧ c ≠ '&' := by
      cases List.mem_append.mp hc
      case inl hc =>
        obtain ⟨-, ha, hn, -⟩ := escapeFormToken_mem hc
        exact ⟨hn, ha⟩
      case inr hc =>
        cases List.mem_cons.mp hc
        case inl hc => exact hc ▸ ⟨by decide, by decide⟩
        case inr hc =>
          obtain ⟨-, ha, hn, -⟩ := escapeFormToken_mem hc
          exact ⟨hn, ha⟩
    simp [BulkFormat.endsPair, hs]
  case header =>
    obtain ⟨-, hk, hv⟩ := h rfl
    have hs : c ≠ '\n' := by
      rintro rfl
      simp [formatEntry, hk, hv] at hc
    simp [BulkFormat.endsPair, hs]

theorem parsePair_entry {e : String × String} (h : Writable format e) (r : ParseResult) :
    parsePair format r (formatEntry format e) = putEntry r (readEntry format e) := by
  cases format
  case form =>
    have hk : BulkFormat.form.separator ∉ escapeFormToken e.1.toList true :=
      fun hm => (escapeFormToken_mem hm).right.right.right rfl rfl
    have hp := @parsePair_line .form r _ (escapeFormToken e.2.toList false) hk
    simp only [BulkFormat.read, if_true, decode_escaped] at hp
    exact hp
  case header =>
    have hp := @parsePair_line .header r e.1.toList (' ' :: e.2.toList) (h rfl).left
    have hv := @strip_pad _ isJsSpace e.2.toList [' '] [] (by simp [isJsSpace]) (by simp)
    rw [List.singleton_append, List.append_nil] at hv
    simp only [BulkFormat.read, reduceCtorEq, if_false, hv] at hp
    exact hp

theorem parseBulk_format (h : ∀ e ∈ record.toList, Writable format e) :
    parseBulk (formatEntries record format) format =
      (record.toList.map (readEntry format)).foldl putEntry ⟨∅, 0⟩ := by
  have hl : ∀ line ∈ record.toList.map (formatEntry format), ∀ c ∈ line,
      format.endsPair c = false :=
    List.forall_mem_map.mpr fun e he => formatEntry_line (h e he)
  rw [formatEntries, parseBulk_lines hl, List.foldl_map, List.foldl_map]
  exact List.foldl_ext _ _ _ fun r e he => parsePair_entry (h e he) r

-- What has been read once is read again as it is.
theorem readEntry_readEntry (e : String × String) :
    readEntry format (readEntry format e) = readEntry format e := by
  cases format
  case form   => simp [readEntry, survives_eq survives_edgesKept]
  case header => simp [readEntry, strip_strip]

theorem readEntry_form {e : String × String} :
    readEntry .form e = e ↔ EdgesKept e.1.toList ∧ EdgesKept e.2.toList := by
  rw [Prod.ext_iff, readEntry, ← String.toList_inj, ← String.toList_inj, String.toList_ofList,
    String.toList_ofList]
  constructor
  case mp  => exact fun h => ⟨h.left ▸ survives_edgesKept, h.right ▸ survives_edgesKept⟩
  case mpr => exact fun h => ⟨survives_eq h.left, survives_eq h.right⟩

-- A record is restored if all of its pairs are read as they were and none is for the prototype.
theorem restores_iff (hw : ∀ e ∈ record.toList, Writable format e)
    (hne : ∀ e ∈ record.toList, e.1 ≠ "") :
    Restores format record ↔
      ∀ e ∈ record.toList, e.1 ≠ "__proto__" ∧ readEntry format e = e := by
  rw [Restores, parseBulk_format hw]
  constructor
  case mp =>
    rintro ⟨-, h⟩ ⟨k, v⟩ he
    have hl := (h k).trans (Table.lookup_of_mem_toList he)
    obtain hl | ⟨hk, hm⟩ := lookup_put hl
    case inl => simp at hl
    case inr =>
      obtain ⟨e', -, hr⟩ := List.mem_map.mp hm
      exact ⟨hk, hr ▸ readEntry_readEntry e'⟩
  case mpr =>
    intro h
    have hmap : record.toList.map (readEntry format) = record.toList :=
      (List.map_congr_left fun e he => (h e he).right).trans (List.map_id _)
    have hn : (record.toList.map Prod.fst).Nodup := by
      rw [Table.keys_toList]
      exact record.keys_nodup
    rw [hmap]
    refine ⟨put_skipped hne, fun k => ?_⟩
    cases hl : record.lookup k
    case some v =>
      have hm : (k, v) ∈ record.toList := List.mem_map.mpr ⟨_, AList.mem_lookup_iff.mp hl, rfl⟩
      exact put_lookup hn (fun e he => ⟨hne e he, (h e he).left⟩) hm
    case none =>
      cases hp : (record.toList.foldl putEntry ⟨∅, 0⟩).entries.lookup k
      case none => rfl
      case some v =>
        obtain hp | ⟨-, hm⟩ := lookup_put hp
        case inl => simp at hp
        case inr => exact absurd (hl.symm.trans (Table.lookup_of_mem_toList hm)) (by simp)

end

def jsTrimmed (s : String) : Prop :=
  trim isJsSpace s = s

-- A header that fits on a line and has been trimmed.
structure HeaderEntry (e : String × String) : Prop where
  key     : jsTrimmed e.1
  value   : jsTrimmed e.2
  noColon : ':' ∉ e.1.toList
  oneLine : '\n' ∉ e.1.toList ∧ '\n' ∉ e.2.toList

-- What begins or ends with white space other than spaces and line feeds is not read as it was, and
-- an entry for the prototype is not read at all.
theorem parseBulk_formatEntries (record : Table String String)
    (hne : ∀ e ∈ record.toList, e.1 ≠ "") :
    (Restores .form record ↔ ∀ e ∈ record.toList,
      e.1 ≠ "__proto__" ∧ EdgesKept e.1.toList ∧ EdgesKept e.2.toList) ∧
    ((∀ e ∈ record.toList, HeaderEntry e) →
      (Restores .header record ↔ ∀ e ∈ record.toList, e.1 ≠ "__proto__")) := by
  constructor
  case left =>
    have hw : ∀ e ∈ record.toList, Writable .form e := fun _ _ h => absurd h (by decide)
    rw [restores_iff hw hne]
    simp only [readEntry_form]
  case right =>
    intro hh
    rw [restores_iff (fun e he _ => ⟨(hh e he).noColon, (hh e he).oneLine⟩) hne]
    have hr : ∀ e ∈ record.toList, readEntry .header e = e := fun e he =>
      Prod.ext (hh e he).key (hh e he).value
    exact ⟨fun h e he => (h e he).left, fun h e he => ⟨h e he, hr e he⟩⟩

-- A query of a form, where the space at the front is read again.
def spacedQuery : Table String String :=
  (∅ : Table String String).insert "q" " a+b=c\n"

-- Headers, one of which has a colon in its value and one of which has none.
def bearerHeaders : Table String String :=
  ((∅ : Table String String).insert "Accept" "*/*").insert "Authorization" "Bearer a:b"

theorem entries_restored : Restores .form spacedQuery ∧ Restores .header bearerHeaders := by
  constructor
  case left =>
    refine (parseBulk_formatEntries spacedQuery (by decide)).left.mpr ?_
    refine List.forall_mem_singleton.mpr ⟨by decide, ?_, ?_⟩
    case refine_1 => simp [EdgesKept, edges, isJsSpace]
    case refine_2 => simp [EdgesKept, edges]
  case right =>
    have ht : ∀ e ∈ bearerHeaders.toList,
        (trim isJsSpace e.1 = e.1 ∧ trim isJsSpace e.2 = e.2) ∧ ':' ∉ e.1.toList ∧
          '\n' ∉ e.1.toList ∧ '\n' ∉ e.2.toList := by decide
    have hh : ∀ e ∈ bearerHeaders.toList, HeaderEntry e := fun e he =>
      ⟨(ht e he).left.left, (ht e he).left.right, (ht e he).right.left, (ht e he).right.right⟩
    exact ((parseBulk_formatEntries bearerHeaders (by decide)).right hh).mpr (by decide)

def tabbedValue : Table String String :=
  (∅ : Table String String).insert "k" "\tv"

-- The tab is trimmed away.
theorem tabbedValue_lost : ¬Restores .form tabbedValue := by
  intro h
  have hw : ∀ e ∈ tabbedValue.toList, Writable .form e := fun _ _ h => absurd h (by decide)
  have hr := (restores_iff hw (by decide)).mp h _ List.mem_cons_self
  exact absurd (readEntry_form.1 hr.right).right (by simp [EdgesKept, edges, isJsSpace])

end Ui
