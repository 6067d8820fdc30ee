import Mathlib.Data.List.GetD
import Mathlib.Data.Nat.Notation

-- The two alphabets of Base64 in RFC 4648, with and without padding.
namespace Base64

def consecutive (first : Char) (n : ℕ) : List Char :=
  (List.range n).map fun i => .ofNat (first.toNat + i)

def alphabet (urlSafe : Bool) : List Char :=
  consecutive 'A' 26 ++ consecutive 'a' 26 ++ consecutive '0' 10 ++
    if urlSafe then ['-', '_'] else ['+', '/']

-- Three bytes are four numbers of six bits.
def sextets : List UInt8 → List ℕ
  | a :: b :: c :: l =>
    a.toNat / 4 :: (a.toNat % 4 * 16 + b.toNat / 16) :: (b.toNat % 16 * 4 + c.toNat / 64) ::
      c.toNat % 64 :: sextets l
  | [a, b] => [a.toNat / 4, a.toNat % 4 * 16 + b.toNat / 16, b.toNat % 16 * 4]
  | [a]    => [a.toNat / 4, a.toNat % 4 * 16]
  | []     => []

def octets : List ℕ → List UInt8
  | w :: x :: y :: z :: l =>
    .ofNat (w * 4 + x / 16) :: .ofNat (x % 16 * 16 + y / 4) :: .ofNat (y % 4 * 64 + z) :: octets l
  | [w, x, y] => [.ofNat (w * 4 + x / 16), .ofNat (x % 16 * 16 + y / 4)]
  | [w, x]    => [.ofNat (w * 4 + x / 16)]
  | _         => []

def encode (urlSafe : Bool) (bytes : List UInt8) : List Char :=
  (sextets bytes).map fun n => (alphabet urlSafe).getD n 'A'

-- What fills the last four characters up.
def padding (bytes : List UInt8) : List Char :=
  List.replicate ((3 - bytes.length % 3) % 3) '='

def write (urlSafe padded : Bool) (bytes : List UInt8) : List Char :=
  encode urlSafe bytes ++ if padded then padding bytes else []

-- Only what is written without padding is read, with all its bits.
def decode (urlSafe : Bool) (text : List Char) : Option (List UInt8) :=
  let bytes := octets (text.map (alphabet urlSafe).idxOf)
  if encode urlSafe bytes = text then some bytes else none

variable {urlSafe : Bool} {bytes : List UInt8} {text : List Char} {c : Char} {n : ℕ}

theorem sextets_lt (h : n ∈ sextets bytes) : n < 64 := by
  induction bytes using sextets.induct
  case case1 a b c l ih =>
    have ha := a.toNat_lt
    have hb := b.toNat_lt
    have hc := c.toNat_lt
    simp only [sextets, List.mem_cons] at h
    obtain rfl | rfl | rfl | rfl | h := h
    all_goals first | exact ih h | omega
  case case2 a b =>
    have ha := a.toNat_lt
    have hb := b.toNat_lt
    simp only [sextets, List.mem_cons, List.not_mem_nil, or_false] at h
    omega
  case case3 a =>
    have ha := a.toNat_lt
    simp only [sextets, List.mem_cons, List.not_mem_nil, or_false] at h
    omega
  case case4 => simp [sextets] at h

theorem octets_sextets (bytes : List UInt8) : octets (sextets bytes) = bytes := by
  have hb {n : ℕ} {b : UInt8} (h : n = b.toNat) : UInt8.ofNat n = b := by rw [h, UInt8.ofNat_toNat]
  induction bytes using sextets.induct
  case case1 a b c l ih =>
    have hlb := b.toNat_lt
    have hlc := c.toNat_lt
    rw [sextets, octets, ih, hb (b := a) (by omega), hb (b := b) (by omega), hb (b := c) (by omega)]
  case case2 a b =>
    have hlb := b.toNat_lt
    rw [sextets, octets, hb (b := a) (by omega), hb (b := b) (by omega)]
  case case3 a => rw [sextets, octets, hb (b := a) (by omega)]
  case case4 => rfl

theorem alphabet_length (urlSafe : Bool) : (alphabet urlSafe).length = 64 := by
  cases urlSafe <;> simp [alphabet, consecutive]

theorem alphabet_nodup (urlSafe : Bool) : (alphabet urlSafe).Nodup := by
  cases urlSafe <;> decide

theorem mem_encode (h : c ∈ encode urlSafe bytes) : c ∈ alphabet urlSafe := by
  obtain ⟨n, hn, rfl⟩ := List.mem_map.mp h
  have hlt : n < (alphabet urlSafe).length := by
    rw [alphabet_length]
    exact sextets_lt hn
  rw [List.getD_eq_getElem _ _ hlt]
  exact List.getElem_mem hlt

theorem idxOf_digit (urlSafe : Bool) {n : ℕ} (hn : n < 64) :
    (alphabet urlSafe).idxOf ((alphabet urlSafe).getD n 'A') = n := by
  have hlt : n < (alphabet urlSafe).length := by rwa [alphabet_length]
  rw [List.getD_eq_getElem _ _ hlt]
  exact (alphabet_nodup urlSafe).idxOf_getElem n hlt

theorem decode_encode : decode urlSafe (encode urlSafe bytes) = some bytes := by
  have hm : (encode urlSafe bytes).map (alphabet urlSafe).idxOf = sextets bytes := by
    rw [encode, List.map_map]
    refine (List.map_congr_left fun n hn => ?_).trans (List.map_id _)
    exact idxOf_digit urlSafe (sextets_lt hn)
  rw [decode, hm, octets_sextets, if_pos rfl]

-- What the decoders promise: each is the inverse of the encoder without padding.
def Inverse (decoder : Bool → String → Option (List UInt8)) : Prop :=
  ∀ urlSafe text bytes, decoder urlSafe text = some bytes ↔ text.toList = encode urlSafe bytes

theorem decode_inverse : Inverse fun urlSafe text => decode urlSafe text.toList := by
  intro urlSafe text bytes
  constructor
  case mp =>
    intro h
    obtain ⟨he, hb⟩ := Option.ite_none_right_eq_some.mp h
    rw [← Option.some.inj hb]
    exact he.symm
  case mpr =>
    intro h
    dsimp only
    rw [h, decode_encode]

-- The characters that only one alphabet has.
def distinguishing (urlSafe : Bool) : List Char :=
  (alphabet urlSafe).drop 62

theorem digit_eq {n : ℕ} (hn : n < 64) (h : (alphabet true).getD n 'A' ∉ distinguishing true) :
    (alphabet true).getD n 'A' = (alphabet false).getD n 'A' := by
  by_cases hlt : n < 62
  case pos =>
    have hl : n < (consecutive 'A' 26 ++ consecutive 'a' 26 ++ consecutive '0' 10).length := by
      simpa [consecutive]
    simp only [alphabet, List.getD_append _ _ _ _ hl]
  case neg =>
    have hlt' : n < (alphabet true).length := by rwa [alphabet_length]
    refine absurd ?_ h
    rw [List.getD_eq_getElem _ _ hlt']
    exact List.mem_drop_iff_getElem.mpr
      ⟨n - 62, by simp [alphabet_length]; omega, by congr 1; omega⟩

theorem encode_eq (h : ∀ c ∈ encode true bytes, c ∉ distinguishing true) :
    encode true bytes = encode false bytes :=
  List.map_congr_left fun _ hn => digit_eq (sextets_lt hn) (h _ (List.mem_map_of_mem hn))

end Base64
