import Handicap.Library.Text

-- Texts and their bytes in UTF-8.
namespace Utf8

def encode (l : List Char) : List UInt8 :=
  l.flatMap String.utf8EncodeChar

def decode (bytes : List UInt8) : Option (List Char) :=
  bytes.toByteArray.utf8Decode?.map Array.toList

-- The number of bytes.
def size (l : List Char) : ℕ :=
  (encode l).length

-- Whether an index lies between two characters.
def isBoundary (bytes : List UInt8) (i : ℕ) : Bool :=
  i ≤ bytes.length && (decode (bytes.take i)).isSome

-- The text between two indices, which have to be boundaries.
def slice (bytes : List UInt8) (a b : ℕ) : Option (List Char) :=
  if a ≤ b ∧ isBoundary bytes a ∧ isBoundary bytes b then decode ((bytes.take b).drop a) else none

-- The bytes between two indices, which have to be in order and within the bytes.
def range (bytes : List UInt8) (a b : ℕ) : Option (List UInt8) :=
  if a ≤ b ∧ b ≤ bytes.length then some ((bytes.take b).drop a) else none

-- The first index from which the bytes begin with those of the needle.
def find (needle : List UInt8) : List UInt8 → ℕ → Option ℕ
  | [], _      => none
  | b :: bs, i => if needle.isPrefixOf (b :: bs) then some i else find needle bs (i + 1)

def isAscii (c : Char) : Prop :=
  c.toNat < 128

variable {c : Char} {l l' needle : List Char} {a b i : ℕ}

@[simp]
theorem encode_nil : encode [] = [] :=
  rfl

@[simp]
theorem encode_cons : encode (c :: l) = String.utf8EncodeChar c ++ encode l :=
  List.flatMap_cons

@[simp]
theorem encode_append : encode (l ++ l') = encode l ++ encode l' :=
  List.flatMap_append

@[simp]
theorem decode_encode : decode (encode l) = some l := by
  have h : (encode l).toByteArray = l.utf8Encode := rfl
  rw [decode, h, List.utf8Decode?_utf8Encode]
  rfl

theorem decode_eq_some {bytes : List UInt8} : decode bytes = some l ↔ bytes = encode l := by
  constructor
  case mp =>
    intro h
    obtain ⟨chars, hc, rfl⟩ := Option.map_eq_some_iff.mp h
    have hs : bytes.toByteArray.utf8Decode?.isSome := Option.isSome_of_mem hc
    have he := @ByteArray.utf8Encode_get_utf8Decode? bytes.toByteArray hs
    simp only [hc, Option.get_some] at he
    exact (List.toByteArray_inj.mp he).symm
  case mpr =>
    rintro rfl
    exact decode_encode

@[simp]
theorem size_nil : size [] = 0 :=
  rfl

@[simp]
theorem size_append : size (l ++ l') = size l + size l' := by
  simp [size]

theorem size_cons_pos : 0 < size (c :: l) := by
  rw [size, encode_cons, List.length_append]
  exact Nat.add_pos_left (List.length_pos_iff.mpr String.utf8EncodeChar_ne_nil) _

theorem encode_ascii (h : isAscii c) : String.utf8EncodeChar c = [UInt8.ofNat c.toNat] := by
  have hle : c.val.toNat ≤ 0x7f := Nat.le_of_lt_succ h
  simp only [String.utf8EncodeChar, if_pos hle]
  rfl

-- The bytes of the other characters are not ones of ASCII.
theorem le_of_mem_encode (h : ¬isAscii c) {x : UInt8} (hx : x ∈ String.utf8EncodeChar c) :
    128 ≤ x.toNat := by
  have hlt : ¬c.val.toNat ≤ 0x7f := fun hle => h (Nat.lt_succ_of_le hle)
  simp only [String.utf8EncodeChar, if_neg hlt] at hx
  split_ifs at hx
  all_goals
    simp only [List.mem_cons, List.not_mem_nil, or_false] at hx
    rcases hx with rfl | rfl | rfl | rfl
  all_goals simp only [UInt8.toNat_ofNat']
  all_goals omega

theorem take_size : (encode (l ++ l')).take (size l) = encode l := by
  simp [size]

theorem isBoundary_size : isBoundary (encode (l ++ l')) (size l) = true := by
  simp [isBoundary, size]

theorem isBoundary_iff : isBoundary (encode l) i ↔ ∃ m, m <+: l ∧ size m = i := by
  constructor
  case mp =>
    intro h
    have ⟨hi, hs⟩ := (Bool.and_eq_true ..).mp h
    obtain ⟨m, hm⟩ := Option.isSome_iff_exists.mp hs
    have ht := decode_eq_some.1 hm
    have he : (encode m ++ (encode l).drop i).toByteArray = (encode l).toByteArray := by
      rw [← ht, List.take_append_drop]
    rw [List.toByteArray_append] at he
    refine ⟨m, List.isPrefix_of_utf8Encode_append_eq_utf8Encode _ he, ?_⟩
    rw [size, ← ht, List.length_take, min_eq_left (of_decide_eq_true hi)]
  case mpr =>
    rintro ⟨m, ⟨l', rfl⟩, rfl⟩
    exact isBoundary_size

-- A slice between two characters.
theorem slice_encode {m : List Char} :
    slice (encode (l ++ m ++ l')) (size l) (size l + size m) = some m := by
  have ha : isBoundary (encode (l ++ m ++ l')) (size l) = true := by
    rw [List.append_assoc]
    exact isBoundary_size
  have hb : isBoundary (encode (l ++ m ++ l')) (size l + size m) = true := by
    rw [← size_append]
    exact isBoundary_size
  have ht : ((encode (l ++ m ++ l')).take (size l + size m)).drop (size l) = encode m := by
    rw [← size_append, take_size, encode_append, size, List.drop_left]
  rw [slice, if_pos ⟨Nat.le_add_right .., ha, hb⟩, ht, decode_encode]

theorem range_encode {m : List Char} :
    range (encode (l ++ m ++ l')) (size l) (size l + size m) = some (encode m) := by
  have hle : size l + size m ≤ (encode (l ++ m ++ l')).length := by
    rw [encode_append, List.length_append, ← size_append]
    exact Nat.le_add_right ..
  rw [range, if_pos ⟨Nat.le_add_right .., hle⟩, ← size_append, take_size, encode_append, size,
    List.drop_left]

-- Characters of ASCII are told apart by their byte, and told from the others.
theorem isPrefixOf_encode (h : ∀ c ∈ needle, isAscii c) :
    (encode needle).isPrefixOf (encode l) = needle.isPrefixOf l := by
  induction needle generalizing l
  case nil => simp
  case cons c needle ih =>
    have hc : isAscii c := h c List.mem_cons_self
    have ih (l : List Char) : (encode needle).isPrefixOf (encode l) = needle.isPrefixOf l :=
      ih fun c hm => h c (List.mem_cons_of_mem _ hm)
    rw [encode_cons, encode_ascii hc]
    cases l
    case nil => rfl
    case cons d l =>
      by_cases hd : isAscii d
      case pos =>
        have he : (UInt8.ofNat c.toNat == UInt8.ofNat d.toNat) = (c == d) := by
          rw [Bool.eq_iff_iff, beq_iff_eq, beq_iff_eq, ← UInt8.toNat_inj, ← Char.toNat_inj]
          simp only [UInt8.toNat_ofNat']
          unfold isAscii at hc hd
          omega
        simp [encode_ascii hd, List.isPrefixOf, he, ih]
      case neg =>
        have hne : c ≠ d := fun he => hd (he ▸ hc)
        obtain ⟨x, xs, hx⟩ := List.exists_cons_of_ne_nil (String.utf8EncodeChar_ne_nil (c := d))
        have hle : 128 ≤ x.toNat := le_of_mem_encode hd (hx ▸ List.mem_cons_self)
        have hb : (UInt8.ofNat c.toNat == x) = false := by
          refine beq_eq_false_iff_ne.mpr fun he => ?_
          rw [← he, UInt8.toNat_ofNat'] at hle
          unfold isAscii at hc
          omega
        simp [hx, List.isPrefixOf, hb, hne]

theorem find_skip {x : UInt8} {xs pre bs : List UInt8} (hx : x.toNat < 128)
    (h : ∀ y ∈ pre, 128 ≤ y.toNat) :
    find (x :: xs) (pre ++ bs) i = find (x :: xs) bs (i + pre.length) := by
  induction pre generalizing i
  case nil => rfl
  case cons y pre ih =>
    have hy : 128 ≤ y.toNat := h y List.mem_cons_self
    have hne : (x == y) = false := beq_eq_false_iff_ne.mpr fun he => by rw [he] at hx; omega
    rw [List.cons_append, find, if_neg (by simp [List.isPrefixOf, hne]),
      ih fun y hm => h y (List.mem_cons_of_mem _ hm), List.length_cons]
    congr 1
    omega

-- A needle of ASCII is found where the text has it.
theorem find_encode (hn : needle ≠ []) (h : ∀ c ∈ needle, isAscii c) :
    find (encode needle) (encode l) i = (Text.cut needle l).map fun p => i + size p.1 := by
  induction l generalizing i
  case nil => rfl
  case cons c l ih =>
    obtain ⟨x, xs, hx⟩ := List.exists_cons_of_ne_nil (String.utf8EncodeChar_ne_nil (c := c))
    have hp := isPrefixOf_encode h (l := c :: l)
    rw [encode_cons, hx, List.cons_append] at hp ⊢
    rw [find, Text.cut, hp]
    split_ifs
    case pos => rfl
    case neg =>
      -- The other bytes of the character are not the first one of the needle.
      obtain ⟨d, needle, rfl⟩ := List.exists_cons_of_ne_nil hn
      have hd : isAscii d := h d List.mem_cons_self
      have hskip : find (encode (d :: needle)) (xs ++ encode l) (i + 1) =
          find (encode (d :: needle)) (encode l) (i + 1 + xs.length) := by
        rw [encode_cons, encode_ascii hd]
        refine find_skip ?_ fun y hy => ?_
        case refine_1 =>
          unfold isAscii at hd
          rw [UInt8.toNat_ofNat']
          omega
        case refine_2 =>
          by_cases hc : isAscii c
          case pos =>
            rw [encode_ascii hc] at hx
            simp [← (List.cons.inj hx).2] at hy
          case neg => exact le_of_mem_encode hc (hx ▸ List.mem_cons_of_mem _ hy)
      rw [hskip, ih, Option.map_map]
      refine congrArg (Option.map · _) (funext fun p => ?_)
      simp only [Function.comp_apply, size, encode_cons, hx, List.length_append, List.length_cons]
      omega

end Utf8
