import Handicap.Engine.Template

-- Templates as lists of pieces, which are what the loop over their bytes makes of them.
namespace Engine

open Utf8 (encode size isAscii)

inductive Piece
  | literal (c : Char)
  | flow (name : String)
  | system (name : String) (default : Option String)
  | unclosed (near : String) (rest : List Char)

-- The pieces of what is left of a template, from the given byte on.
def pieces (pos : ℕ) : List Char → List Piece
  | []     => []
  | c :: l =>
    if c = '{' ∧ l.head? = some '{' then
      match h : Text.cut ['}', '}'] l.tail with
      | none              => [.unclosed s!"unclosed \x7b\x7b at byte {pos}" (c :: l)]
      | some (name, rest) => .flow (trimmed name) :: pieces (pos + 2 + size name + 2) rest
    else if c = '$' ∧ l.head? = some '{' then
      match h : Text.cut ['}'] l.tail with
      | none               => [.unclosed s!"unclosed $\x7b at byte {pos}" (c :: l)]
      | some (inner, rest) =>
        .system (splitDefault inner).1 (splitDefault inner).2 ::
          pieces (pos + 2 + size inner + 1) rest
    else
      .literal c :: pieces (pos + size [c]) l
termination_by l => l.length
decreasing_by
  all_goals
    try
      have hl := congrArg List.length (Text.cut_eq_some h)
      simp only [List.length_append, List.length_tail, List.length_cons] at hl ⊢
      omega
  simp

def Piece.render (ctx : TemplateContext) (lenient : Bool) (r : Rendering) :
    Piece → Except EngineError Rendering
  | literal c           => .ok (r.push [c])
  | flow name           => r.resolve lenient name (ctx.vars.lookup name)
  | system name default => r.resolve lenient name (ctx.system name default)
  | unclosed near rest  =>
    if lenient then .ok (r.push rest) else .error (.malformedTemplate near)

def renderPieces (ctx : TemplateContext) (lenient : Bool) (ps : List Piece) (r : Rendering) :
    Except EngineError Rendering :=
  ps.foldlM (Piece.render ctx lenient) r

variable {ctx : TemplateContext} {lenient : Bool} {r : Rendering} {p l : List Char} {c d : Char}

theorem ascii_brace : isAscii '{' := by
  unfold isAscii
  decide

theorem ascii_dollar : isAscii '$' := by
  unfold isAscii
  decide

theorem ascii_close : isAscii '}' := by
  unfold isAscii
  decide

-- The byte after some characters tells whether the next one is a given character of ASCII.
theorem getElem?_encode (hd : isAscii d) :
    (encode (p ++ l))[size p]? = some (UInt8.ofNat d.toNat) ↔ l.head? = some d := by
  rw [Utf8.encode_append, size, List.getElem?_append_right le_rfl, Nat.sub_self,
    ← List.head?_eq_getElem?]
  cases l
  case nil => simp
  case cons c l =>
    obtain ⟨x, xs, hx⟩ := List.exists_cons_of_ne_nil (String.utf8EncodeChar_ne_nil (c := c))
    rw [Utf8.encode_cons, hx, List.cons_append, List.head?_cons, List.head?_cons, Option.some_inj,
      Option.some_inj]
    by_cases hc : isAscii c
    case pos =>
      rw [Utf8.encode_ascii hc] at hx
      rw [← (List.cons.inj hx).1, ← UInt8.toNat_inj, ← Char.toNat_inj]
      simp only [UInt8.toNat_ofNat']
      unfold isAscii at hc hd
      omega
    case neg =>
      have hle : 128 ≤ x.toNat := Utf8.le_of_mem_encode hc (hx ▸ List.mem_cons_self)
      constructor
      case mp =>
        intro he
        rw [he, UInt8.toNat_ofNat'] at hle
        unfold isAscii at hd
        omega
      case mpr => exact fun he => absurd (he ▸ hd) hc

-- The loop goes over the bytes of a character that is not one of ASCII.
theorem renderLoop_skip {bytes xs : List UInt8} {fuel i litStart : ℕ}
    (h : ∀ x ∈ xs, 128 ≤ x.toNat) (hx : xs <+: bytes.drop i) :
    renderLoop bytes ctx lenient (fuel + xs.length) i litStart r =
      renderLoop bytes ctx lenient fuel (i + xs.length) litStart r := by
  induction xs generalizing i
  case nil => rfl
  case cons x xs ih =>
    obtain ⟨t, ht⟩ := hx
    have hi : i < bytes.length := by
      have hl := congrArg List.length ht
      simp at hl
      omega
    have hget : bytes[i]? = some x := by
      rw [← List.head?_drop, ← ht]
      rfl
    have hxs : xs <+: bytes.drop (i + 1) := by
      rw [← List.tail_drop, ← ht]
      exact ⟨t, rfl⟩
    have hle : 128 ≤ x.toNat := h x List.mem_cons_self
    have h₁ : x ≠ 0x7b := fun he => by simp [he] at hle
    have h₂ : x ≠ 0x24 := fun he => by simp [he] at hle
    rw [List.length_cons, ← Nat.add_assoc, renderLoop, if_pos hi, if_neg (by simp [hget, h₁]),
      if_neg (by simp [hget, h₂]), ih (fun x hm => h x (List.mem_cons_of_mem _ hm)) hxs]
    congr 1
    omega

theorem push_push {a b : List Char} : (r.push a).push b = r.push (a ++ b) := by
  simp [Rendering.push]

-- The character at which no token begins.
theorem renderLoop_literal {fuel litStart : ℕ}
    (h₁ : ¬(c = '{' ∧ l.head? = some '{')) (h₂ : ¬(c = '$' ∧ l.head? = some '{')) :
    renderLoop (encode (p ++ c :: l)) ctx lenient (fuel + size [c]) (size p) litStart r =
      renderLoop (encode (p ++ c :: l)) ctx lenient fuel (size p + size [c]) litStart r := by
  by_cases hc : isAscii c
  case neg =>
    have hs : size [c] = (String.utf8EncodeChar c).length := by simp [size]
    rw [hs]
    refine renderLoop_skip (fun x hx => Utf8.le_of_mem_encode hc hx) ?_
    rw [Utf8.encode_append, size, List.drop_left, Utf8.encode_cons]
    exact List.prefix_append ..
  case pos =>
    have hs : size [c] = 1 := by simp [size, Utf8.encode_ascii hc]
    have hlt : size p < (encode (p ++ c :: l)).length := by
      have hpos := Utf8.size_cons_pos (c := c) (l := l)
      rw [Utf8.encode_append, List.length_append]
      exact Nat.lt_add_of_pos_right hpos
    have hnext : (encode (p ++ c :: l))[size p + 1]? = some 0x7b ↔ l.head? = some '{' := by
      have hg := getElem?_encode (p := p ++ [c]) (l := l) ascii_brace
      rwa [Utf8.size_append, hs, List.append_assoc] at hg
    have hbrace : (encode (p ++ c :: l))[size p]? = some 0x7b ↔ c = '{' :=
      (getElem?_encode (l := c :: l) ascii_brace).trans (by simp)
    have hdollar : (encode (p ++ c :: l))[size p]? = some 0x24 ↔ c = '$' :=
      (getElem?_encode (l := c :: l) ascii_dollar).trans (by simp)
    rw [hs, renderLoop, if_pos hlt, if_neg (by rwa [hbrace, hnext]), if_neg (by rwa [hdollar, hnext])]

theorem findPair_encode :
    findPair (encode (p ++ l)) (size p) [0x7d, 0x7d] =
      (Text.cut ['}', '}'] l).map fun m => size p + size m.1 := by
  have hd : (encode (p ++ l)).drop (size p) = encode l := by
    rw [Utf8.encode_append, size, List.drop_left]
  have hf : Utf8.find (encode ['}', '}']) (encode l) (size p) =
      (Text.cut ['}', '}'] l).map fun m => size p + size m.1 :=
    Utf8.find_encode (by simp) (by simp [ascii_close])
  rw [Utf8.encode_cons, Utf8.encode_cons, Utf8.encode_ascii ascii_close] at hf
  cases l
  case nil => simp [findPair, Text.cut, size]
  case cons c l =>
    have hlt : ¬(encode (p ++ c :: l)).length ≤ size p := by
      have hpos := Utf8.size_cons_pos (c := c) (l := l)
      rw [Utf8.encode_append, List.length_append]
      exact Nat.not_le_of_lt <| Nat.lt_add_of_pos_right hpos
    rw [findPair, if_neg (not_or.mpr ⟨by simp, hlt⟩), hd]
    exact hf

theorem findByte_encode :
    findByte (encode (p ++ l)) (size p) 0x7d =
      some ((Text.cut ['}'] l).map fun m => size p + size m.1) := by
  have hr : Utf8.range (encode (p ++ l ++ [])) (size p) (size p + size l) = some (encode l) :=
    Utf8.range_encode
  have hf : Utf8.find (encode ['}']) (encode l) (size p) =
      (Text.cut ['}'] l).map fun m => size p + size m.1 :=
    Utf8.find_encode (by simp) (by simp [ascii_close])
  rw [Utf8.encode_cons, Utf8.encode_ascii ascii_close] at hf
  rw [List.append_nil, ← Utf8.size_append] at hr
  rw [findByte]
  exact (congrArg (Option.map _) hr).trans (congrArg some hf)

theorem flush {pre lit rest : List Char} :
    Utf8.slice (encode (pre ++ lit ++ rest)) (size pre) (size (pre ++ lit)) = some lit := by
  rw [Utf8.size_append]
  exact Utf8.slice_encode

theorem malformed_encode {near : String} :
    malformed (encode (p ++ l)) lenient r (size p) near =
      some (Piece.render ctx lenient r (.unclosed near l)) := by
  have hs : Utf8.slice (encode (p ++ l)) (size p) (encode (p ++ l)).length = some l := by
    have hs : Utf8.slice (encode (p ++ l ++ [])) (size p) (size (p ++ l)) = some l := flush
    rwa [List.append_nil] at hs
  rw [malformed, Piece.render, hs]
  split_ifs <;> rfl

theorem push_nil : r.push [] = r := by
  simp [Rendering.push]

theorem size_pair (hc : isAscii c) (hd : isAscii d) : size (p ++ [c, d]) = size p + 2 := by
  simp [size, Utf8.encode_ascii hc, Utf8.encode_ascii hd]

theorem size_one (hc : isAscii c) : size (p ++ [c]) = size p + 1 := by
  simp [size, Utf8.encode_ascii hc]

-- At a token, both of its first two bytes are there.
theorem opens (hc : isAscii c) :
    size p < (encode (p ++ c :: '{' :: l)).length ∧
      (encode (p ++ c :: '{' :: l))[size p]? = some (UInt8.ofNat c.toNat) ∧
        (encode (p ++ c :: '{' :: l))[size p + 1]? = some 0x7b := by
  have hpos : 0 < size (c :: '{' :: l) := Utf8.size_cons_pos
  have hnext : (encode (p ++ [c] ++ '{' :: l))[size (p ++ [c])]? = some 0x7b :=
    (getElem?_encode ascii_brace).mpr rfl
  rw [size_one hc, List.append_assoc] at hnext
  refine ⟨?_, (getElem?_encode hc).mpr rfl, hnext⟩
  rw [Utf8.encode_append, List.length_append]
  exact Nat.lt_add_of_pos_right hpos

variable {pre lit rest : List Char} {fuel : ℕ}

theorem renderLoop_unclosed (h : Text.cut ['}', '}'] l = none) :
    renderLoop (encode (pre ++ lit ++ '{' :: '{' :: l)) ctx lenient (fuel + 1) (size (pre ++ lit))
        (size pre) r =
      some (Piece.render ctx lenient (r.push lit)
        (.unclosed s!"unclosed \x7b\x7b at byte {size (pre ++ lit)}" ('{' :: '{' :: l))) := by
  obtain ⟨hlt, h₀, h₁⟩ := opens (p := pre ++ lit) (l := l) ascii_brace
  have hfind := findPair_encode (p := pre ++ lit ++ ['{', '{']) (l := l)
  rw [size_pair ascii_brace ascii_brace, h, List.append_assoc _ ['{', '{'] l] at hfind
  have hfind : findPair (encode (pre ++ lit ++ '{' :: '{' :: l)) (size (pre ++ lit) + 2)
      [0x7d, 0x7d] = none := hfind
  rw [renderLoop, if_pos hlt, if_pos ⟨h₀, h₁⟩, flush]
  simp only [Option.bind_eq_bind, Option.bind_some, hfind]
  exact malformed_encode

theorem renderLoop_flow {name : List Char} (h : Text.cut ['}', '}'] l = some (name, rest)) :
    renderLoop (encode (pre ++ lit ++ '{' :: '{' :: l)) ctx lenient (fuel + 1) (size (pre ++ lit))
        (size pre) r =
      proceed (Piece.render ctx lenient (r.push lit) (.flow (trimmed name))) fun r =>
        renderLoop (encode (pre ++ lit ++ '{' :: '{' :: l)) ctx lenient fuel
          (size (pre ++ lit) + 2 + size name + 2) (size (pre ++ lit) + 2 + size name + 2) r := by
  obtain ⟨hlt, h₀, h₁⟩ := opens (p := pre ++ lit) (l := l) ascii_brace
  have hfind := findPair_encode (p := pre ++ lit ++ ['{', '{']) (l := l)
  rw [size_pair ascii_brace ascii_brace, h, List.append_assoc _ ['{', '{'] l] at hfind
  have hfind : findPair (encode (pre ++ lit ++ '{' :: '{' :: l)) (size (pre ++ lit) + 2)
      [0x7d, 0x7d] = some (size (pre ++ lit) + 2 + size name) := hfind
  have hrange : Utf8.range (encode (pre ++ lit ++ '{' :: '{' :: l)) (size (pre ++ lit) + 2)
      (size (pre ++ lit) + 2 + size name) = some (encode name) := by
    have he : pre ++ lit ++ '{' :: '{' :: l =
        pre ++ lit ++ ['{', '{'] ++ name ++ (['}', '}'] ++ rest) := by
      rw [Text.cut_eq_some h]
      simp
    rw [he, ← size_pair ascii_brace ascii_brace]
    exact Utf8.range_encode
  rw [renderLoop, if_pos hlt, if_pos ⟨h₀, h₁⟩, flush]
  simp only [Option.bind_eq_bind, Option.bind_some, hfind, hrange, Utf8.decode_encode]
  rfl

theorem renderLoop_unclosed_system (h : Text.cut ['}'] l = none) :
    renderLoop (encode (pre ++ lit ++ '$' :: '{' :: l)) ctx lenient (fuel + 1) (size (pre ++ lit))
        (size pre) r =
      some (Piece.render ctx lenient (r.push lit)
        (.unclosed s!"unclosed $\x7b at byte {size (pre ++ lit)}" ('$' :: '{' :: l))) := by
  obtain ⟨hlt, h₀, h₁⟩ := opens (p := pre ++ lit) (l := l) ascii_dollar
  have hfind := findByte_encode (p := pre ++ lit ++ ['$', '{']) (l := l)
  rw [size_pair ascii_dollar ascii_brace, h, List.append_assoc _ ['$', '{'] l] at hfind
  have hfind : findByte (encode (pre ++ lit ++ '$' :: '{' :: l)) (size (pre ++ lit) + 2)
      0x7d = some none := hfind
  have hn : ¬((encode (pre ++ lit ++ '$' :: '{' :: l))[size (pre ++ lit)]? = some 0x7b ∧
      (encode (pre ++ lit ++ '$' :: '{' :: l))[size (pre ++ lit) + 1]? = some 0x7b) := by
    rw [h₀]
    simp
  rw [renderLoop, if_pos hlt, if_neg hn, if_pos ⟨h₀, h₁⟩, flush]
  simp only [Option.bind_eq_bind, Option.bind_some, hfind]
  exact malformed_encode

theorem renderLoop_system {inner : List Char} (h : Text.cut ['}'] l = some (inner, rest)) :
    renderLoop (encode (pre ++ lit ++ '$' :: '{' :: l)) ctx lenient (fuel + 1) (size (pre ++ lit))
        (size pre) r =
      proceed (Piece.render ctx lenient (r.push lit)
        (.system (splitDefault inner).1 (splitDefault inner).2)) fun r =>
        renderLoop (encode (pre ++ lit ++ '$' :: '{' :: l)) ctx lenient fuel
          (size (pre ++ lit) + 2 + size inner + 1) (size (pre ++ lit) + 2 + size inner + 1) r := by
  obtain ⟨hlt, h₀, h₁⟩ := opens (p := pre ++ lit) (l := l) ascii_dollar
  have hfind := findByte_encode (p := pre ++ lit ++ ['$', '{']) (l := l)
  rw [size_pair ascii_dollar ascii_brace, h, List.append_assoc _ ['$', '{'] l] at hfind
  have hfind : findByte (encode (pre ++ lit ++ '$' :: '{' :: l)) (size (pre ++ lit) + 2)
      0x7d = some (some (size (pre ++ lit) + 2 + size inner)) := hfind
  have hrange : Utf8.range (encode (pre ++ lit ++ '$' :: '{' :: l)) (size (pre ++ lit) + 2)
      (size (pre ++ lit) + 2 + size inner) = some (encode inner) := by
    have he : pre ++ lit ++ '$' :: '{' :: l =
        pre ++ lit ++ ['$', '{'] ++ inner ++ (['}'] ++ rest) := by
      rw [Text.cut_eq_some h]
      simp
    rw [he, ← size_pair ascii_dollar ascii_brace]
    exact Utf8.range_encode
  have hn : ¬((encode (pre ++ lit ++ '$' :: '{' :: l))[size (pre ++ lit)]? = some 0x7b ∧
      (encode (pre ++ lit ++ '$' :: '{' :: l))[size (pre ++ lit) + 1]? = some 0x7b) := by
    rw [h₀]
    simp
  rw [renderLoop, if_pos hlt, if_neg hn, if_pos ⟨h₀, h₁⟩, flush]
  simp only [Option.bind_eq_bind, Option.bind_some, hfind, hrange, Utf8.decode_encode]
  rfl

theorem renderPieces_cons {x : Piece} {ps : List Piece} :
    some (renderPieces ctx lenient (x :: ps) r) =
      proceed (Piece.render ctx lenient r x) fun r => some (renderPieces ctx lenient ps r) := by
  rw [renderPieces, List.foldlM_cons]
  cases Piece.render ctx lenient r x <;> rfl

theorem size_rest_le {needle m : List Char} (h : Text.cut needle l = some (m, rest)) :
    size rest ≤ size l := by
  rw [Text.cut_eq_some h, Utf8.size_append]
  exact Nat.le_add_left ..

theorem size_lt_of_opens (hc : isAscii c) (h : size rest ≤ size l)
    (hf : size (c :: '{' :: l) < fuel + 1) : size rest < fuel := by
  have hs : size (c :: '{' :: l) = 2 + size l := by
    have hp : size ([] ++ [c, '{']) = 2 := size_pair hc ascii_brace
    rw [← hp, ← Utf8.size_append]
    rfl
  omega

-- By induction on what is left, where lit is the text since the last token.
theorem renderLoop_encode {pos : ℕ} (hp : pos = size (pre ++ lit)) (hf : size rest < fuel) :
    renderLoop (encode (pre ++ lit ++ rest)) ctx lenient fuel pos (size pre) r =
      some (renderPieces ctx lenient (pieces pos rest) (r.push lit)) := by
  fun_induction pieces pos rest generalizing pre lit fuel r
  case case1 =>
    obtain ⟨fuel, rfl⟩ := Nat.exists_eq_succ_of_ne_zero (Nat.ne_of_gt <| Nat.zero_lt_of_lt hf)
    have hlen : (encode (pre ++ lit ++ [])).length = size (pre ++ lit) := by
      rw [List.append_nil]
      rfl
    have hend : ¬size (pre ++ lit) < size (pre ++ lit) := Nat.lt_irrefl _
    subst hp
    rw [renderLoop, hlen, if_neg hend, flush]
    rfl
  case case2 pos c l h hcut =>
    obtain ⟨rfl, hl⟩ := h
    obtain ⟨l, rfl⟩ := List.head?_eq_some_iff.mp hl
    obtain ⟨fuel, rfl⟩ := Nat.exists_eq_succ_of_ne_zero (Nat.ne_of_gt <| Nat.zero_lt_of_lt hf)
    subst hp
    rw [List.tail_cons] at hcut
    rw [renderLoop_unclosed hcut, renderPieces_cons]
    cases Piece.render ctx lenient (r.push lit) _ <;> rfl
  case case3 pos c l h name rest hcut ih =>
    obtain ⟨rfl, hl⟩ := h
    obtain ⟨l, rfl⟩ := List.head?_eq_some_iff.mp hl
    obtain ⟨fuel, rfl⟩ := Nat.exists_eq_succ_of_ne_zero (Nat.ne_of_gt <| Nat.zero_lt_of_lt hf)
    subst hp
    rw [List.tail_cons] at hcut
    rw [renderLoop_flow hcut, renderPieces_cons]
    refine congrArg (proceed _) (funext fun r => ?_)
    have hf : size rest < fuel := size_lt_of_opens ascii_brace (size_rest_le hcut) hf
    have hp : size (pre ++ lit) + 2 + size name + 2 =
        size (pre ++ lit ++ ['{', '{'] ++ name ++ ['}', '}'] ++ []) := by
      rw [List.append_nil, size_pair ascii_close ascii_close,
        @Utf8.size_append (pre ++ lit ++ ['{', '{']) name, size_pair ascii_brace ascii_brace]
    have ih := @ih r (pre ++ lit ++ ['{', '{'] ++ name ++ ['}', '}']) [] fuel hp hf
    rw [List.append_nil] at hp
    rw [push_nil, ← hp] at ih
    rw [← ih, Text.cut_eq_some hcut]
    simp
  case case4 pos c l hn h hcut =>
    obtain ⟨rfl, hl⟩ := h
    obtain ⟨l, rfl⟩ := List.head?_eq_some_iff.mp hl
    obtain ⟨fuel, rfl⟩ := Nat.exists_eq_succ_of_ne_zero (Nat.ne_of_gt <| Nat.zero_lt_of_lt hf)
    subst hp
    rw [List.tail_cons] at hcut
    rw [renderLoop_unclosed_system hcut, renderPieces_cons]
    cases Piece.render ctx lenient (r.push lit) _ <;> rfl
  case case5 pos c l hn h inner rest hcut ih =>
    obtain ⟨rfl, hl⟩ := h
    obtain ⟨l, rfl⟩ := List.head?_eq_some_iff.mp hl
    obtain ⟨fuel, rfl⟩ := Nat.exists_eq_succ_of_ne_zero (Nat.ne_of_gt <| Nat.zero_lt_of_lt hf)
    subst hp
    rw [List.tail_cons] at hcut
    rw [renderLoop_system hcut, renderPieces_cons]
    refine congrArg (proceed _) (funext fun r => ?_)
    have hf : size rest < fuel := size_lt_of_opens ascii_dollar (size_rest_le hcut) hf
    have hp : size (pre ++ lit) + 2 + size inner + 1 =
        size (pre ++ lit ++ ['$', '{'] ++ inner ++ ['}'] ++ []) := by
      rw [List.append_nil, size_one ascii_close, @Utf8.size_append (pre ++ lit ++ ['$', '{']) inner,
        size_pair ascii_dollar ascii_brace]
    have ih := @ih r (pre ++ lit ++ ['$', '{'] ++ inner ++ ['}']) [] fuel hp hf
    rw [List.append_nil] at hp
    rw [push_nil, ← hp] at ih
    rw [← ih, Text.cut_eq_some hcut]
    simp
  case case6 pos c l h₁ h₂ ih =>
    have hs : size (c :: l) = size [c] + size l := Utf8.size_append (l := [c])
    obtain ⟨n, rfl⟩ := Nat.exists_eq_add_of_le' (Nat.le_of_lt <| Nat.lt_of_le_of_lt
      (hs ▸ Nat.le_add_right ..) hf)
    have hf : size l < n := by omega
    have hp' : pos + size [c] = size (pre ++ (lit ++ [c])) := by
      rw [hp, ← Utf8.size_append, List.append_assoc]
    have ih := @ih r pre (lit ++ [c]) n hp' hf
    rw [renderPieces_cons, ← List.append_assoc, List.append_assoc _ [c] l] at *
    subst hp
    rw [renderLoop_literal h₁ h₂]
    refine ih.trans ?_
    rw [← push_push]
    rfl

-- Every template has a result, whatever its tokens.
theorem renderInner_eq {input : String} {sink : Option (List String)} :
    renderInner input ctx lenient sink =
      some (renderPieces ctx lenient (pieces 0 input.toList) ⟨[], sink⟩) :=
  @renderLoop_encode ctx lenient ⟨[], sink⟩ [] [] input.toList _ 0 rfl (Nat.lt_succ_self _)

-- The pieces of a text, from its beginning.
theorem pieces_literal {pos : ℕ} (h₁ : ¬(c = '{' ∧ l.head? = some '{'))
    (h₂ : ¬(c = '$' ∧ l.head? = some '{')) :
    pieces pos (c :: l) = .literal c :: pieces (pos + size [c]) l := by
  rw [pieces, if_neg h₁, if_neg h₂]

theorem pieces_flow {pos : ℕ} {name : List Char} (h : '}' ∉ name) :
    pieces pos ('{' :: '{' :: (name ++ '}' :: '}' :: l)) =
      .flow (trimmed name) :: pieces (pos + 2 + size name + 2) l := by
  rw [pieces, if_pos ⟨rfl, rfl⟩]
  split
  case h_1 hc =>
    have hsome := hc.symm.trans (Text.cut_pair h)
    cases hsome
  case h_2 name' rest hc =>
    have hsome := hc.symm.trans (Text.cut_pair h)
    obtain ⟨rfl, rfl⟩ := Prod.mk.inj (Option.some.inj hsome)
    rfl

theorem pieces_system {pos : ℕ} {inner : List Char} (h : '}' ∉ inner) :
    pieces pos ('$' :: '{' :: (inner ++ '}' :: l)) =
      .system (splitDefault inner).1 (splitDefault inner).2 ::
        pieces (pos + 2 + size inner + 1) l := by
  rw [pieces, if_neg (by simp), if_pos ⟨rfl, rfl⟩]
  split
  case h_1 hc =>
    have hsome := hc.symm.trans (Text.cut_one.mpr ⟨rfl, h⟩)
    cases hsome
  case h_2 inner' rest hc =>
    have hsome := hc.symm.trans (Text.cut_one.mpr ⟨rfl, h⟩)
    obtain ⟨rfl, rfl⟩ := Prod.mk.inj (Option.some.inj hsome)
    rfl

end Engine
