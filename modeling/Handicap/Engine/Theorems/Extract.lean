import Handicap.Engine.Extract
import Handicap.Library.Base64

-- What the decoding of extracted values undoes.
namespace Engine

open Base64 (alphabet distinguishing)

def White (l : List Char) : Prop :=
  ∀ c ∈ l, Store.isWhiteSpace c

-- What is left of a text to be decoded.
def core (s : String) : List Char :=
  (trimmedChars s).rdropWhile (· = '=')

section

variable {u : Bool} {bytes : List UInt8} {front back l : List Char} {c : Char} {s text : String}

theorem alphabet_plain (u : Bool) (c : Char) (h : c ∈ alphabet u) :
    !Store.isWhiteSpace c ∧ c ≠ '=' ∧ c ≠ '.' := by
  have hall : ∀ u, (alphabet u).all fun c => !Store.isWhiteSpace c ∧ c ≠ '=' ∧ c ≠ '.' := by
    decide +kernel
  exact of_decide_eq_true (List.all_eq_true.mp (hall u) c h)

theorem distinguishing_plain (u : Bool) (c : Char) (h : c ∈ distinguishing u) :
    !Store.isWhiteSpace c ∧ c ≠ '=' ∧ c ∉ alphabet !u := by
  have hall : ∀ u, (distinguishing u).all fun c =>
      !Store.isWhiteSpace c ∧ c ≠ '=' ∧ c ∉ alphabet !u := by
    decide +kernel
  exact of_decide_eq_true (List.all_eq_true.mp (hall u) c h)

theorem mem_distinguishing : c ∈ distinguishing u ↔
    if u then c = '-' ∨ c = '_' else c = '+' ∨ c = '/' := by
  cases u
  case false =>
    have h : distinguishing false = ['+', '/'] := by decide
    simp [h]
  case true =>
    have h : distinguishing true = ['-', '_'] := by decide
    simp [h]

-- A text without white space at its ends that is written between white space.
theorem trimmedChars_pad (hf : White front) (hb : White back)
    (hh : ∀ c ∈ l.head?, !Store.isWhiteSpace c) (hl : ∀ c ∈ l.getLast?, !Store.isWhiteSpace c) :
    trimmedChars (.ofList (front ++ l ++ back)) = l := by
  rw [trimmedChars, String.toList_ofList]
  refine Text.Stripped.eq ⟨⟨front, back, rfl, hf, hb⟩, fun c hc => ?_, fun c hc => ?_⟩
  case refine_1 => simpa using hh c hc
  case refine_2 => simpa using hl c hc

theorem rdropWhile_padded (h : ∀ c ∈ l, c ≠ '=') (k : ℕ) :
    (l ++ List.replicate k '=').rdropWhile (· = '=') = l := by
  rw [List.rdropWhile, List.reverse_append, List.reverse_replicate,
    List.dropWhile_append_of_pos (by simp)]
  exact List.rdropWhile_eq_self_iff.mpr fun hl => by simpa using h _ (List.getLast_mem hl)

theorem core_written (hf : White front) (hb : White back) (k : ℕ) :
    core (.ofList (front ++ (Base64.encode u bytes ++ List.replicate k '=') ++ back)) =
      Base64.encode u bytes := by
  have hw : ∀ c ∈ Base64.encode u bytes ++ List.replicate k '=', !Store.isWhiteSpace c := by
    intro c hc
    obtain hc | hc := List.mem_append.mp hc
    case inl => exact (alphabet_plain u c (Base64.mem_encode hc)).left
    case inr =>
      rw [List.eq_of_mem_replicate hc]
      decide
  rw [core, trimmedChars_pad hf hb (fun c hc => hw c (List.mem_of_mem_head? hc))
    fun c hc => hw c (List.mem_of_mem_getLast? hc)]
  exact rdropWhile_padded (fun c hc => (alphabet_plain u c (Base64.mem_encode hc)).right.left) k

-- Whatever is left comes from between white space and padding.
theorem core_eq (s : String) : ∃ front back k, White front ∧ White back ∧
    s.toList = front ++ (core s ++ List.replicate k '=') ++ back := by
  obtain ⟨front, back, he, hf, hb⟩ := (Text.strip_stripped Store.isWhiteSpace s.toList).sides
  refine ⟨front, back, ((trimmedChars s).rtakeWhile (· = '=')).length, hf, hb, ?_⟩
  have hr : (trimmedChars s).rtakeWhile (· = '=') =
      List.replicate ((trimmedChars s).rtakeWhile (· = '=')).length '=' :=
    List.eq_replicate_of_mem fun c hc => by simpa using List.mem_rtakeWhile_imp hc
  rw [← hr, core, List.rdropWhile_append_rtakeWhile]
  exact he

variable {base64 : Bool → String → Option (List UInt8)}

theorem any_urlSafe :
    (l.any fun c => c = '-' ∨ c = '_') ↔ ∃ c ∈ l, c ∈ distinguishing true := by
  simp [mem_distinguishing]

theorem any_standard :
    (l.any fun c => c = '+' ∨ c = '/') ↔ ∃ c ∈ l, c ∈ distinguishing false := by
  simp [mem_distinguishing]

theorem decodeBase64Text_mixed (hu : ∃ c ∈ core s, c ∈ distinguishing true)
    (hs : ∃ c ∈ core s, c ∈ distinguishing false) :
    decodeBase64Text base64 s = .error .notBase64 :=
  if_pos ⟨any_urlSafe.2 hu, any_standard.2 hs⟩

theorem encode_plain : ∀ c ∈ Base64.encode u bytes, c ∉ distinguishing !u := by
  intro c hc hd
  have h := (distinguishing_plain _ c hd).right.right
  rw [Bool.not_not] at h
  exact h (Base64.mem_encode hc)

-- The alphabet that is chosen reads the text if one of the two does.
theorem decodeBase64Text_iff (hb : Base64.Inverse base64) :
    decodeBase64Text base64 s = .ok text ↔
      ∃ u, core s = Base64.encode u (Utf8.encode text.toList) := by
  constructor
  case mp =>
    intro h
    unfold decodeBase64Text at h
    dsimp only at h
    split at h
    case isTrue => simp at h
    case isFalse =>
      split at h
      case h_1 => simp at h
      case h_2 bytes hbytes =>
        have he := (hb _ _ _).mp hbytes
        rw [String.toList_ofList] at he
        split at h
        case h_1 => simp at h
        case h_2 chars hc =>
          obtain rfl := Except.ok.inj h
          rw [Utf8.decode_eq_some.mp hc] at he
          exact ⟨_, by rw [String.toList_ofList]; exact he⟩
  case mpr =>
    rintro ⟨u, hu⟩
    have hm : ¬(((core s).any fun c => c = '-' ∨ c = '_') = true ∧
        ((core s).any fun c => c = '+' ∨ c = '/') = true) := by
      rw [any_urlSafe, any_standard, hu]
      rintro ⟨⟨c, hc, hd⟩, c', hc', hd'⟩
      cases u
      case false => exact encode_plain c hc hd
      case true => exact encode_plain c' hc' hd'
    have hs : base64 ((core s).any fun c => c = '-' ∨ c = '_') (.ofList (core s)) =
        some (Utf8.encode text.toList) := by
      rw [hb, String.toList_ofList]
      cases ha : (core s).any fun c => c = '-' ∨ c = '_'
      case true =>
        obtain ⟨c, hc, hd⟩ := any_urlSafe.1 ha
        rw [hu] at hc
        cases u
        case false => exact absurd hd (encode_plain c hc)
        case true => exact hu
      case false =>
        cases u
        case false => exact hu
        case true =>
          -- Without a character that tells them apart the alphabets are the same.
          rw [hu]
          refine Base64.encode_eq fun c hc hd => ?_
          have hn := any_urlSafe.2 ⟨c, hu ▸ hc, hd⟩
          rw [ha] at hn
          exact Bool.false_ne_true hn
    unfold decodeBase64Text
    simp only [core] at hm hs
    dsimp only
    rw [if_neg hm, hs]
    simp

theorem decodeBase64Text_none (hb : Base64.Inverse base64)
    (hc : ∃ c ∈ core s, ∀ u, c ∉ alphabet u) : decodeBase64Text base64 s = .error .notBase64 := by
  obtain ⟨c, hc, hu⟩ := hc
  have hn (u : Bool) : base64 u (.ofList (core s)) = none := by
    cases h : base64 u (.ofList (core s))
    case none => rfl
    case some bytes =>
      have he := (hb _ _ _).mp h
      rw [String.toList_ofList] at he
      rw [he] at hc
      exact absurd (Base64.mem_encode hc) (hu u)
  unfold decodeBase64Text
  simp only [core] at hn
  dsimp only
  rw [hn]
  split <;> rfl

-- A text with a character of no alphabet, or with characters that only one alphabet has of both,
-- white space at the ends and padding aside.
def Garbled (s : String) : Prop :=
  (∃ c ∈ core s, ∀ u, c ∉ alphabet u) ∨ ∀ u, ∃ c ∈ core s, c ∈ distinguishing u

theorem decodeBase64Text_garbled (hb : Base64.Inverse base64) (h : Garbled s) :
    decodeBase64Text base64 s = .error .notBase64 := by
  cases h
  case inl h => exact decodeBase64Text_none hb h
  case inr h => exact decodeBase64Text_mixed (h true) (h false)

end

section

variable {u padded : Bool} {bytes : List UInt8} {front back pre header signature l : List Char}
  {payload : List Char} {c : Char}

theorem mem_write (h : c ∈ Base64.write u padded bytes) : c ∈ alphabet u ∨ c = '=' := by
  obtain h | h := List.mem_append.mp h
  case inl => exact .inl (Base64.mem_encode h)
  case inr =>
    cases padded
    case false => simp at h
    case true => exact .inr (List.eq_of_mem_replicate h)

theorem write_plain (h : c ∈ Base64.write u padded bytes) : !Store.isWhiteSpace c ∧ c ≠ '.' := by
  obtain h | rfl := mem_write h
  case inl => exact ⟨(alphabet_plain u c h).left, (alphabet_plain u c h).right.right⟩
  case inr => decide

-- The word that may stand before a token.
def Bearer (pre : List Char) : Prop :=
  pre = [] ∨ ∃ word spaces, word.map Char.toLower = "bearer".toList ∧ White spaces ∧
    pre = word ++ ' ' :: spaces

-- Characters of a token, which has no white space.
def Token (l : List Char) : Prop :=
  ∀ c ∈ l, !Store.isWhiteSpace c

theorem take_bearer {word spaces : List Char} (hw : word.map Char.toLower = "bearer".toList) :
    eqIgnoreAsciiCase ((word ++ ' ' :: spaces).take 7) "bearer ".toList ∧
      (word ++ ' ' :: spaces).drop 7 = spaces := by
  have hl : word.length = 6 := by
    have h := congrArg List.length hw
    rw [List.length_map] at h
    exact h
  have ht : (word ++ ' ' :: spaces).take 7 = word ++ [' '] := by
    rw [List.take_append, hl, List.take_of_length_le (by omega)]
    rfl
  constructor
  case left =>
    rw [ht, eqIgnoreAsciiCase, List.map_append, hw]
    rfl
  case right =>
    rw [List.drop_append, hl, List.drop_of_length_le (by omega)]
    rfl

theorem toLower_cases (c : Char) :
    c.toLower = c ∨ 65 ≤ c.toNat ∧ c.toNat ≤ 90 ∧ c.toLower.toNat = c.toNat + 32 := by
  unfold Char.toLower
  split
  case isTrue hc =>
    have hle : 65 ≤ c.val.toNat ∧ c.val.toNat ≤ 90 := hc
    have hadd : (c.val + ('a'.val - 'A'.val)).toNat = c.val.toNat + 32 := by
      have hd : ('a'.val - 'A'.val).toNat = 32 := rfl
      rw [UInt32.toNat_add, hd]
      exact Nat.mod_eq_of_lt (by omega)
    exact .inr ⟨hle.left, hle.right, hadd⟩
  case isFalse => exact .inl rfl

theorem toLower_space (h : c.toLower = ' ') : c = ' ' := by
  obtain he | ⟨hle, -, hn⟩ := toLower_cases c
  case inl => exact he.symm.trans h
  case inr =>
    have hs : c.toLower.toNat = 32 := by rw [h]; rfl
    omega

theorem white_toLower (h : Store.isWhiteSpace c) : c.toLower = c := by
  obtain he | ⟨hl, hu, -⟩ := toLower_cases c
  case inl => exact he
  case inr =>
    simp [Store.isWhiteSpace] at h
    omega

theorem token_not_bearer (h : Token l) : eqIgnoreAsciiCase (l.take 7) "bearer ".toList = false := by
  by_contra he
  rw [Bool.not_eq_false, eqIgnoreAsciiCase, decide_eq_true_iff] at he
  have hm : ' ' ∈ (l.take 7).map Char.toLower := by
    rw [he]
    decide
  obtain ⟨c, hc, hs⟩ := List.mem_map.mp hm
  obtain rfl := toLower_space hs
  exact absurd (h ' ' (List.mem_of_mem_take hc)) (by decide)

theorem bearer_head {word spaces : List Char} (hw : word.map Char.toLower = "bearer".toList) :
    ∀ c ∈ (word ++ ' ' :: spaces ++ l).head?, !Store.isWhiteSpace c := by
  cases word
  case nil => simp at hw
  case cons d word =>
    rintro c ⟨⟩
    have hd : d.toLower = 'b' := (List.cons.inj hw).left
    by_contra hn
    rw [Bool.not_eq_true', Bool.not_eq_false] at hn
    rw [white_toLower hn] at hd
    subst hd
    exact absurd hn (by decide)

-- The payload is what stands between the two points of the token.
theorem jwtPayload_eq (hf : White front) (hb : White back) (hp : Bearer pre)
    (hh : ∀ c ∈ header, !Store.isWhiteSpace c ∧ c ≠ '.')
    (hl : ∀ c ∈ payload, !Store.isWhiteSpace c ∧ c ≠ '.')
    (hs : ∀ c ∈ signature, !Store.isWhiteSpace c ∧ c ≠ '.') :
    jwtPayload (.ofList (front ++ (pre ++ (header ++ '.' :: (payload ++ '.' :: signature))) ++ back)) =
      some (.ofList payload) := by
  have htoken : Token (header ++ '.' :: (payload ++ '.' :: signature)) := by
    intro c hc
    simp only [List.mem_append, List.mem_cons] at hc
    obtain hc | rfl | hc | rfl | hc := hc
    case inl => exact (hh c hc).left
    case inr.inr.inl => exact (hl c hc).left
    case inr.inr.inr.inr => exact (hs c hc).left
    all_goals decide
  have hsplit : (header ++ '.' :: (payload ++ '.' :: signature)).splitOn '.' =
      [header, payload, signature] := by
    have hi : header ++ '.' :: (payload ++ '.' :: signature) =
        ['.'].intercalate [header, payload, signature] := by simp [List.intercalate]
    rw [hi]
    refine List.splitOn_intercalate _ ?_ (by simp)
    simp only [List.forall_mem_cons]
    exact ⟨fun h => (hh _ h).right rfl, fun h => (hl _ h).right rfl, fun h => (hs _ h).right rfl,
      by simp⟩
  generalize ht : header ++ '.' :: (payload ++ '.' :: signature) = token at htoken hsplit
  have hne : token ≠ [] := by
    rw [← ht]
    simp
  have hlast : ∀ c ∈ (pre ++ token).getLast?, !Store.isWhiteSpace c := by
    rw [List.getLast?_append_of_ne_nil _ hne]
    exact fun c hc => htoken c (List.mem_of_mem_getLast? hc)
  have hskip {spaces : List Char} (hw : White spaces) :
      (spaces ++ token).dropWhile Store.isWhiteSpace = token := by
    rw [List.dropWhile_append_of_pos hw]
    refine List.dropWhile_eq_self_iff.mpr fun h => ?_
    simpa using htoken _ (List.getElem_mem h)
  unfold jwtPayload
  obtain rfl | ⟨word, spaces, hw, hsp, rfl⟩ := hp
  case inl =>
    have hh : ∀ c ∈ ([] ++ token).head?, !Store.isWhiteSpace c :=
      fun c hc => htoken c (List.mem_of_mem_head? hc)
    rw [trimmedChars_pad hf hb hh hlast]
    simp only [List.nil_append, token_not_bearer htoken, Bool.false_eq_true, if_false, hsplit]
  case inr =>
    obtain ⟨ht, hd⟩ := @take_bearer word (spaces ++ token) hw
    rw [trimmedChars_pad hf hb (bearer_head hw) hlast]
    simp only [List.append_assoc, List.cons_append, ht, hd, if_true, hskip hsp, hsplit]

end

section

variable {lib : Libraries} {var raw text payload : String} {decode : Decode} {claim : Option String}

theorem postProcess_base64 : postProcess lib var raw (some .base64) none = .ok text ↔
    decodeBase64Text lib.base64 raw = .ok text := by
  cases h : decodeBase64Text lib.base64 raw
  case ok =>
    simp only [postProcess, h, bind, Except.bind, pure, Except.pure, and_self, if_true,
      Except.ok.injEq]
  case error e =>
    cases e <;>
      simp only [postProcess, h, bind, Except.bind, pure, Except.pure, reduceCtorEq]

theorem postProcess_jwt (hp : jwtPayload raw = some payload)
    (hd : decodeBase64Text lib.base64 payload = .ok text) (hj : (lib.fromStr text).isSome) :
    postProcess lib var raw (some .jwt) none = .ok text := by
  obtain ⟨json, hj⟩ := Option.isSome_iff_exists.mp hj
  simp only [postProcess, hp, hd, hj, bind, Except.bind, pure, Except.pure, Option.elim_some,
    reduceCtorEq, false_and, if_false]

-- The part of a value that is decoded.
def decoded (raw : String) : Decode → Option String
  | .base64 => some raw
  | .jwt    => jwtPayload raw

theorem postProcess_notBase64 (hp : decoded raw decode = some payload)
    (hd : decodeBase64Text lib.base64 payload = .error .notBase64) :
    postProcess lib var raw (some decode) claim = .error (.extractFailed s!"{var}: not base64") := by
  cases decode
  case base64 =>
    obtain rfl := Option.some.inj hp
    simp only [postProcess, hd, bind, Except.bind, pure, Except.pure]
    rw [String.append_assoc]
    rfl
  case jwt =>
    simp only [decoded] at hp
    simp only [postProcess, hp, hd, bind, Except.bind, pure, Except.pure]
    rw [String.append_assoc]
    rfl

end

-- Every encoding is undone, also in a token. What is not one is refused, and what is read is one
-- but for the white space around it and its padding.
theorem postProcess_undoes (lib : Libraries) (hb : Base64.Inverse lib.base64) (var : String) :
    (∀ u padded front back text, White front → White back →
      postProcess lib var (.ofList (front ++ Base64.write u padded (Utf8.encode text.toList) ++ back))
        (some .base64) none = .ok text) ∧
    (∀ u padded front back pre header signature claims, White front → White back → Bearer pre →
      (∀ c ∈ header, c ∈ alphabet true) → (∀ c ∈ signature, c ∈ alphabet true) →
      (lib.fromStr claims).isSome →
      postProcess lib var (.ofList (front ++ (pre ++ (header ++ '.' ::
        (Base64.write u padded (Utf8.encode claims.toList) ++ '.' :: signature))) ++ back))
        (some .jwt) none = .ok claims) ∧
    (∀ raw decode payload claim, decoded raw decode = some payload → Garbled payload →
      postProcess lib var raw (some decode) claim =
        .error (.extractFailed s!"{var}: not base64")) ∧
    ∀ raw text, postProcess lib var raw (some .base64) none = .ok text → ∃ u front back k,
      White front ∧ White back ∧ raw.toList =
        front ++ (Base64.encode u (Utf8.encode text.toList) ++ List.replicate k '=') ++ back := by
  have hw (u padded : Bool) (bytes : List UInt8) : ∃ k,
      Base64.write u padded bytes = Base64.encode u bytes ++ List.replicate k '=' := by
    cases padded
    case false => exact ⟨0, rfl⟩
    case true => exact ⟨_, rfl⟩
  refine ⟨?_, ?_, ?_, ?_⟩
  case refine_1 =>
    intro u padded front back text hf hbk
    obtain ⟨k, hk⟩ := hw u padded (Utf8.encode text.toList)
    rw [postProcess_base64, hk]
    exact (decodeBase64Text_iff hb).mpr ⟨u, core_written hf hbk k⟩
  case refine_2 =>
    intro u padded front back pre header signature claims hf hbk hp hh hs hj
    have hplain {l : List Char} (h : ∀ c ∈ l, c ∈ alphabet true) :
        ∀ c ∈ l, !Store.isWhiteSpace c ∧ c ≠ '.' := fun c hc =>
      ⟨(alphabet_plain true c (h c hc)).left, (alphabet_plain true c (h c hc)).right.right⟩
    have hpay := jwtPayload_eq hf hbk hp (hplain hh)
      (fun c => @write_plain u padded (Utf8.encode claims.toList) c) (hplain hs)
    obtain ⟨k, hk⟩ := hw u padded (Utf8.encode claims.toList)
    refine postProcess_jwt hpay ((decodeBase64Text_iff hb).mpr ⟨u, ?_⟩) hj
    have hc := @core_written u (Utf8.encode claims.toList) [] [] (by simp [White]) (by simp [White]) k
    rwa [List.nil_append, List.append_nil, ← hk] at hc
  case refine_3 =>
    intro raw decode payload claim hp hg
    exact postProcess_notBase64 hp (decodeBase64Text_garbled hb hg)
  case refine_4 =>
    intro raw text h
    obtain ⟨u, hu⟩ := (decodeBase64Text_iff hb).mp (postProcess_base64.1 h)
    obtain ⟨front, back, k, hf, hbk, he⟩ := core_eq raw
    exact ⟨u, front, back, k, hf, hbk, hu ▸ he⟩

-- The decoders, and a reader that knows one text of JSON.
def decoders : Libraries where
  fromStr text     := if text = "[]" then some (.array []) else none
  fromSlice _      := .error "expected value"
  print _          := ""
  debug text       := text
  jsonPath _       := none
  base64 u text    := Base64.decode u text.toList
  regex _          := none
  parseF64 _       := none
  headerName name  := .ok name
  headerValue text := .ok text

theorem postProcess_undoes_decoders :
    postProcess decoders "t" " aGVsbG8_Pn4=\n" (some .base64) none = .ok "hello?>~" ∧
    postProcess decoders "t" "BEARER  eyJ9.W10.c2ln" (some .jwt) none = .ok "[]" := by
  obtain ⟨hbase, hjwt, -⟩ := postProcess_undoes decoders Base64.decode_inverse "t"
  constructor
  case left =>
    have hs : White [' '] := by simp [White, Store.isWhiteSpace]
    have hn : White ['\n'] := by simp [White, Store.isWhiteSpace]
    exact hbase true true [' '] ['\n'] "hello?>~" hs hn
  case right =>
    have h0 : White [] := List.forall_mem_nil _
    have hs : White [' '] := by simp [White, Store.isWhiteSpace]
    have hp : Bearer "BEARER  ".toList := .inr ⟨"BEARER".toList, [' '], by decide, hs, rfl⟩
    have hsegment : ∀ l ∈ ["eyJ9".toList, "c2ln".toList], ∀ c ∈ l, c ∈ alphabet true := by
      simp [alphabet, Base64.consecutive, List.range, List.range.loop]
    exact hjwt true false [] [] "BEARER  ".toList "eyJ9".toList "c2ln".toList "[]" h0 h0 hp
      (hsegment _ (by simp)) (hsegment _ (by simp)) rfl

end Engine
