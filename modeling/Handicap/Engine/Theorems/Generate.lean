import Handicap.Engine.Generate
import Handicap.Engine.Theorems.GenVars
import Handicap.Engine.Theorems.Positions
import Mathlib.Algebra.Order.Ring.Abs
import Mathlib.Data.Int.Order.Basic
import Mathlib.Data.List.GetD
import Mathlib.Data.List.Nodup

-- The values that are generated meet the declarations that are accepted.
namespace Engine

open Guard

-- What is checked of a generator when it is read.
def GenSpec.Valid (lib : DeclLib) : GenSpec → Prop
  | .date g         =>
    (g.format = "unix" ∨ g.format = "unix_ms" ∨ lib.strftimeValid g.format) ∧
      (∀ tz ∈ g.tz, lib.tzValid tz) ∧ |g.offsetSecs| ≤ 999999999 * 86400
  | .randomInt g    =>
    -2 ^ 63 ≤ g.min ∧ g.min ≤ g.max ∧ g.max < 2 ^ 63 ∧ 1 ≤ g.step ∧ g.step < 2 ^ 32
  | .uuid           => True
  | .randomString n => 1 ≤ n ∧ n ≤ 64
  | .pickArray g    =>
    1 ≤ g.length ∧ g.length ≤ pickArrayMaxLen ∧ g.min ≤ g.max ∧ g.max ≤ g.length ∧
      g.min ≤ g.candidates.length ∧ g.candidates ≠ [] ∧ g.candidates.Nodup ∧
      ∀ p ∈ g.candidates, 1 ≤ p ∧ p ≤ g.length

section Accepted

variable {lib : DeclLib} {w : GenSpecWire} {spec : GenSpec} {s : String}

-- The numbers of a declaration are of the types of its fields.
structure GenSpecWire.Ranged (w : GenSpecWire) : Prop where
  min  : ∀ n ∈ w.min, -2 ^ 63 ≤ n ∧ n < 2 ^ 63
  max  : ∀ n ∈ w.max, -2 ^ 63 ≤ n ∧ n < 2 ^ 63
  step : ∀ n ∈ w.step, n < 2 ^ 32

theorem readI64_range {y : Yaml} {n : ℤ} (h : readI64 y = some n) : -2 ^ 63 ≤ n ∧ n < 2 ^ 63 := by
  cases y
  case int k =>
    obtain ⟨hlt, rfl⟩ : k.val < 2 ^ 63 ∧ k.val = n := by simpa [readI64] using h
    exact ⟨k.lo, hlt⟩
  all_goals simp [readI64] at h

theorem readU32_range {y : Yaml} {n : ℕ} (h : readU32 y = some n) : n < 2 ^ 32 := by
  cases y
  case int k =>
    obtain ⟨⟨h0, hlt⟩, rfl⟩ : (0 ≤ k.val ∧ k.val < 2 ^ 32) ∧ k.val.toNat = n := by
      simpa [readU32] using h
    omega
  all_goals simp [readU32] at h

theorem wire_ranged (lib : DeclLib) (m : Mapping) (gen : String) : (m.wire lib gen).Ranged where
  min n h  := by
    obtain ⟨y, -, hy⟩ := Option.bind_eq_some_iff.mp h
    exact readI64_range hy
  max n h  := by
    obtain ⟨y, -, hy⟩ := Option.bind_eq_some_iff.mp h
    exact readI64_range hy
  step n h := by
    obtain ⟨y, -, hy⟩ := Option.bind_eq_some_iff.mp h
    exact readU32_range hy

theorem unitSeconds_le {c : Char} {n : ℕ} (h : unitSeconds c = some n) : n ≤ 86400 := by
  unfold unitSeconds at h
  split at h <;> simp at h <;> omega

-- An offset has at most nine digits, and its largest unit is a day.
theorem parseOffsetSecs_le {secs : ℤ} (h : parseOffsetSecs s = some secs) :
    |secs| ≤ 999999999 * 86400 := by
  unfold parseOffsetSecs at h
  split at h
  case h_2 => simp at h
  case h_1 sign rest _ =>
    dsimp only at h
    split at h
    case isTrue => simp at h
    case isFalse hd =>
      simp only [not_or, not_not, not_lt] at hd
      obtain ⟨-, -, h9, hd⟩ := hd
      obtain ⟨mult, hm, rfl⟩ := Option.map_eq_some_iff.mp h
      obtain ⟨unit, -, hu⟩ := Option.bind_eq_some_iff.mp hm
      have hlt := Text.digitsValue_lt (List.all_eq_true.mp hd)
      have hp : 10 ^ rest.dropLast.length ≤ 10 ^ 9 := Nat.pow_le_pow_right (by decide) h9
      have hle : Text.digitsValue rest.dropLast * mult ≤ 999999999 * 86400 :=
        Nat.mul_le_mul (by omega) (unitSeconds_le hu)
      have hs : |(if sign = '-' then -1 else 1 : ℤ)| = 1 := by split <;> simp
      rw [abs_mul, hs, one_mul, Nat.abs_cast]
      exact_mod_cast hle

theorem toDate_valid (h : w.toDate lib = .ok spec) : spec.Valid lib := by
  simp only [GenSpecWire.toDate] at h
  obtain ⟨_, _, h⟩ := bind_eq_ok.mp h
  obtain ⟨_, hf, h⟩ := bind_eq_ok.mp h
  have hf : w.format.getD "%Y-%m-%d" = "unix" ∨ w.format.getD "%Y-%m-%d" = "unix_ms" ∨
      lib.strftimeValid (w.format.getD "%Y-%m-%d") := by
    have hf := refuse_eq_ok.mp hf
    tauto
  have hdate {secs : ℤ} {message : String} (hle : |secs| ≤ 999999999 * 86400)
      (h : (refuse (∃ t ∈ w.tz, ¬lib.tzValid t) message >>= fun _ =>
        .ok (.date ⟨w.format.getD "%Y-%m-%d", w.offset, w.tz, secs⟩)) = .ok spec) :
      spec.Valid lib := by
    obtain ⟨_, ht, h⟩ := bind_eq_ok.mp h
    obtain rfl := Except.ok.inj h
    have ht := refuse_eq_ok.mp ht
    push Not at ht
    exact ⟨hf, ht, hle⟩
  split at h
  case h_1 o _ =>
    split at h
    case h_1 secs hs => exact hdate (parseOffsetSecs_le hs) h
    case h_2 => simp [bind, Except.bind] at h
  case h_2 => exact hdate (by simp) h

theorem toRandomInt_valid (hw : w.Ranged) (h : w.toRandomInt = .ok spec) : spec.Valid lib := by
  simp only [GenSpecWire.toRandomInt] at h
  obtain ⟨_, _, h⟩ := bind_eq_ok.mp h
  split at h
  case h_2 => simp at h
  case h_1 min max hmin hmax =>
    obtain ⟨_, hle, h⟩ := bind_eq_ok.mp h
    obtain ⟨_, hs, h⟩ := bind_eq_ok.mp h
    obtain rfl := Except.ok.inj h
    have hle := refuse_eq_ok.mp hle
    have hs := refuse_eq_ok.mp hs
    have hmin := hw.min min hmin
    have hmax := hw.max max hmax
    refine ⟨hmin.left, not_lt.mp hle, hmax.right, Nat.pos_of_ne_zero hs, ?_⟩
    change w.step.getD 1 < 2 ^ 32
    cases hst : w.step
    case none => simp
    case some n => exact hw.step n hst

-- The candidates are distinct positions of the array.
theorem candidates_within {length : ℕ} {set : List ℕ} (h : w.candidates length = .ok set) :
    set.Nodup ∧ ∀ p ∈ set, 1 ≤ p ∧ p ≤ length := by
  unfold GenSpecWire.candidates at h
  split at h
  case h_1 p _ =>
    obtain ⟨-, -, ranges, hr⟩ := spells_of_parsePositions h
    obtain ⟨hs, hm⟩ := mem_positions_iff hr h
    refine ⟨hs.imp fun hlt => hlt.ne, fun p hp => ?_⟩
    obtain ⟨r, hrm, hle⟩ := (hm p).mp hp
    have hw := hr.within r hrm
    omega
  case h_2 =>
    obtain rfl := Except.ok.inj h
    refine ⟨List.nodup_range', fun p hp => ?_⟩
    have hp := List.mem_range'_1.mp hp
    omega

theorem toPickArray_valid (h : w.toPickArray = .ok spec) : spec.Valid lib := by
  simp only [GenSpecWire.toPickArray] at h
  obtain ⟨_, _, h⟩ := bind_eq_ok.mp h
  split at h
  case h_1 => simp at h
  case h_2 length _ =>
    obtain ⟨_, hl, h⟩ := bind_eq_ok.mp h
    split at h
    case h_2 => simp at h
    case h_1 min max _ _ =>
      obtain ⟨_, h0, h⟩ := bind_eq_ok.mp h
      obtain ⟨_, hle, h⟩ := bind_eq_ok.mp h
      obtain ⟨_, hmax, h⟩ := bind_eq_ok.mp h
      obtain ⟨set, hset, h⟩ := bind_eq_ok.mp h
      obtain ⟨_, hne, h⟩ := bind_eq_ok.mp h
      obtain ⟨_, hlen, h⟩ := bind_eq_ok.mp h
      obtain rfl := Except.ok.inj h
      have hl := not_not.mp (refuse_eq_ok.mp hl)
      have h0 := refuse_eq_ok.mp h0
      have hle := refuse_eq_ok.mp hle
      have hmax := refuse_eq_ok.mp hmax
      have hne := refuse_eq_ok.mp hne
      have hlen := refuse_eq_ok.mp hlen
      obtain ⟨hnd, hin⟩ := candidates_within hset
      refine ⟨hl.left, hl.right, ?_, ?_, ?_, hne, hnd, hin⟩
      case refine_1 => exact Int.toNat_le_toNat (by omega)
      case refine_2 => exact Int.toNat_le.mpr (not_lt.mp hmax)
      case refine_3 => exact Int.toNat_le.mpr (not_lt.mp hlen)

theorem tryInto_valid (hw : w.Ranged) (h : w.tryInto lib = .ok spec) : spec.Valid lib := by
  unfold GenSpecWire.tryInto at h
  split at h
  case h_1 => exact toDate_valid h
  case h_2 => exact toRandomInt_valid hw h
  case h_3 =>
    obtain ⟨_, _, h⟩ := bind_eq_ok.mp h
    obtain rfl := Except.ok.inj h
    trivial
  case h_4 =>
    obtain ⟨_, _, h⟩ := bind_eq_ok.mp h
    obtain ⟨_, hl, h⟩ := bind_eq_ok.mp h
    obtain rfl := Except.ok.inj h
    have hl := refuse_eq_ok.mp hl
    rw [not_not] at hl
    exact hl
  case h_5 => exact toPickArray_valid h
  case h_6 => simp at h

theorem visitMap_valid {m : Mapping} {refresh : Refresh}
    (h : VarDecl.visitMap lib m = .ok (.gen spec refresh)) : spec.Valid lib := by
  obtain ⟨gen, -, -, spec', hs, he⟩ := visitMap_eq_ok.mp h
  obtain rfl := (VarDecl.gen.inj he).left
  exact tryInto_valid (wire_ranged lib m gen) hs

end Accepted

section Generated

variable {σ : Type} {rng : Rng σ} {s : σ}

-- An item of a format is written unless it can be read only or stands for what is no format.
structure Chrono.Lawful (chrono : Chrono) (lib : DeclLib) : Prop where
  writeItem : ∀ tz t item, (∀ z ∈ tz, lib.tzValid z) → chrono.minUtc ≤ t → t ≤ chrono.maxUtc →
    ((chrono.writeItem tz t item).isSome ↔ item ≠ .error ∧ item ≠ .permissiveOffset)

-- What a declaration asks of a value.
def Meets (lib : DeclLib) (chrono : Chrono) (json : List Scalar → String) (spec : GenSpec)
    (now : ℤ) (text : String) : Prop :=
  match spec with
  | .date g         => writeDate lib chrono g
    (max chrono.minUtc (min chrono.maxUtc (now + g.offsetSecs * 1000000000))) = some text
  | .randomInt g    => ∃ v : ℤ, text = toString v ∧ g.min ≤ v ∧ v ≤ g.max ∧
    ∃ k : ℕ, v = g.min + k * g.step
  | .uuid           => text.toList.length = 36
  | .randomString n => text.toList.length = n ∧ ∀ c ∈ text.toList, c ∈ rsChars
  | .pickArray g    => ∃ picked : List ℕ, picked.Nodup ∧ (∀ p ∈ picked, p ∈ g.candidates) ∧
    g.min ≤ picked.length ∧ picked.length ≤ min g.max g.candidates.length ∧
    text = json ((List.range' 1 g.length).map fun p =>
      if p ∈ picked then g.pick.getD (.bool true) else g.rest.getD (.bool false))

section

variable {α β : Type} {x : StateT σ Option α} {f : α → StateT σ Option β} {a : α} {s' : σ}

theorem bind_of_eq (h : x s = some (a, s')) : (x >>= f) s = f a s' := by
  simp only [bind, StateT.bind, h, Option.bind_some]

theorem lift_bind {o : Option α} (h : o = some a) : ((liftM o : StateT σ Option α) >>= f) s = f a s :=
  bind_of_eq (by rw [h]; rfl)

end

theorem lift_apply {α : Type} {o : Option α} :
    (liftM o : StateT σ Option α) s = o.map (·, s) := by
  cases o <;> rfl

theorem range_eq (hr : rng.Lawful) {lo hi : ℕ} (h : lo ≤ hi) :
    ∃ k s', rng.range lo hi s = some (k, s') ∧ lo ≤ k ∧ k ≤ hi := by
  refine ⟨(rng.genRange lo hi s).1, (rng.genRange lo hi s).2, ?_, hr.genRange lo hi s h⟩
  rw [Rng.range, if_pos h]

-- The drawn multiple of the step, counted from the least number.
theorem evalRandomInt_eq {lib : DeclLib} {g : RandomIntGen} (hg : (GenSpec.randomInt g).Valid lib)
    {k : ℕ} {s' : σ} (hk : rng.range 0 ((g.max - g.min).toNat / g.step) s = some (k, s'))
    (hle : k ≤ (g.max - g.min).toNat / g.step) :
    evalRandomInt rng g s = some (toString (g.min + k * g.step), s') ∧
      g.min + (k : ℤ) * g.step ≤ g.max := by
  obtain ⟨hmin, hle', hmax, hstep, -⟩ := hg
  have hspan : asU64 (g.max - g.min) = (g.max - g.min).toNat := by
    rw [asU64, Int.emod_eq_of_lt (by omega) (by omega)]
  have hdist : (k : ℤ) * g.step ≤ g.max - g.min := by
    have hm := Nat.mul_le_of_le_div _ _ _ hle
    have hc : ((k * g.step : ℕ) : ℤ) ≤ ((g.max - g.min).toNat : ℕ) := Int.ofNat_le.mpr hm
    rw [Int.toNat_of_nonneg (by omega)] at hc
    exact_mod_cast hc
  have hpos : 0 ≤ (k : ℤ) * g.step := Int.mul_nonneg (Int.natCast_nonneg _) (Int.natCast_nonneg _)
  have h1 : i128 (g.max - g.min) = some (g.max - g.min) := if_pos (by omega)
  have h2 : i128 (k * g.step) = some ((k : ℤ) * g.step) := if_pos (by omega)
  have h3 : i128 (g.min + k * g.step) = some (g.min + k * g.step) := if_pos (by omega)
  have h4 : asI64 (g.min + k * g.step) = g.min + k * g.step :=
    Int.bmod_eq_of_le (by omega) (by omega)
  have h0 : g.step ≠ 0 := by omega
  refine ⟨?_, by omega⟩
  unfold evalRandomInt
  rw [lift_bind h1, if_neg h0, lift_bind rfl, hspan]
  dsimp only
  rw [bind_of_eq hk, lift_bind h2, lift_bind h3, h4]
  rfl

theorem evalDate_eq {lib : DeclLib} {chrono : Chrono} {g : DateGen} {now : ℤ}
    (hg : (GenSpec.date g).Valid lib) (h₁ : chrono.minUtc ≤ now) (h₂ : now ≤ chrono.maxUtc) :
    evalDate lib chrono g now = writeDate lib chrono g
      (max chrono.minUtc (min chrono.maxUtc (now + g.offsetSecs * 1000000000))) := by
  have hs : Chrono.seconds g.offsetSecs = some (g.offsetSecs * 1000000000) :=
    if_pos (by have hle := hg.right.right; omega)
  rw [evalDate, hs, Option.bind_eq_bind, Option.bind_some]
  rw [Chrono.checkedAddSigned]
  split
  case isTrue h => rw [Option.getD_some, min_eq_right h.right, max_eq_right h.left]
  case isFalse h =>
    rw [Option.getD_none]
    split
    case isTrue h0 => rw [min_eq_left (by omega), max_eq_right (by omega)]
    case isFalse h0 => rw [min_eq_right (by omega), max_eq_left (by omega)]

theorem hexByte_length (b : UInt8) : (hexByte b).length = 2 :=
  rfl

theorem flatMap_hexByte_length (l : List UInt8) : (l.flatMap hexByte).length = 2 * l.length := by
  simp [List.length_flatMap, hexByte_length, Nat.mul_comm]

theorem evalUuid_eq (hr : rng.Lawful) : ∃ text s', evalUuid rng s = some (text, s') ∧
    text.toList.length = 36 := by
  have hb : rng.bytes 16 s = some ((rng.fill 16 s).1, (rng.fill 16 s).2) := rfl
  unfold evalUuid
  rw [bind_of_eq hb]
  refine ⟨_, _, rfl, ?_⟩
  simp only [String.toList_ofList, List.length_append, List.length_cons, flatMap_hexByte_length,
    List.length_drop, List.length_take, List.length_modify, hr.fill]
  rfl

theorem evalRandomString_eq (hr : rng.Lawful) (n : ℕ) :
    ∃ text s', evalRandomString rng n s = some (text, s') ∧ text.toList.length = n ∧
      ∀ c ∈ text.toList, c ∈ rsChars := by
  suffices h : ∀ (l : List ℕ) (s : σ), ∃ chars s',
      (l.mapM fun _ => (do
        let i ← rng.range 0 (rsChars.length - 1)
        rsChars[i]? : StateT σ Option Char)) s = some (chars, s') ∧
      chars.length = l.length ∧ ∀ c ∈ chars, c ∈ rsChars by
    obtain ⟨chars, s', h, hl, hc⟩ := h (List.range n) s
    unfold evalRandomString
    rw [bind_of_eq h]
    exact ⟨_, _, rfl, by simpa using hl, by simpa using hc⟩
  intro l
  induction l
  case nil => exact fun s => ⟨[], s, rfl, rfl, by simp⟩
  case cons a l ih =>
    intro s
    obtain ⟨i, s₁, hi, -, hle⟩ := range_eq (s := s) hr (Nat.zero_le (rsChars.length - 1))
    have hlt : i < rsChars.length := Nat.lt_of_le_pred (by decide) hle
    obtain ⟨chars, s₂, h, hl, hc⟩ := ih s₁
    refine ⟨rsChars[i] :: chars, s₂, ?_, by simp [hl], ?_⟩
    case refine_1 =>
      have hc : (rng.range 0 (rsChars.length - 1) >>= fun i =>
          (liftM rsChars[i]? : StateT σ Option Char)) s = some (rsChars[i], s₁) := by
        rw [bind_of_eq hi, List.getElem?_eq_getElem hlt]
        rfl
      rw [List.mapM_cons, bind_of_eq hc, bind_of_eq h]
      rfl
    case refine_2 => exact List.forall_mem_cons.mpr ⟨List.getElem_mem hlt, hc⟩

theorem mapIdx_self {α : Type} (l : List α) : (l.mapIdx fun _ a => a) = l :=
  List.ext_getElem (by simp) fun _ _ _ => by simp

theorem mapIdx_replicate {α : Type} (f : ℕ → α → α) (n : ℕ) (a : α) :
    (List.replicate n a).mapIdx (fun i a => f (i + 1) a) = (List.range' 1 n).map (f · a) :=
  List.ext_getElem (by simp) fun i _ _ => by simp [Nat.add_comm]

-- The places of the drawn candidates get the picked value, the others stay as they are.
theorem placePicks_eq {candidates drawn : List ℕ} {pick : Scalar} {out : List Scalar}
    (hc : ∀ p ∈ candidates, 1 ≤ p ∧ p ≤ out.length) (hd : ∀ i ∈ drawn, i < candidates.length) :
    placePicks candidates pick drawn out = some (out.mapIdx fun place v =>
      if place + 1 ∈ drawn.map (candidates.getD · 0) then pick else v) := by
  induction drawn generalizing out
  case nil => simp [placePicks, mapIdx_self]
  case cons idx drawn ih =>
    have hi := hd idx List.mem_cons_self
    have hp := hc candidates[idx] (List.getElem_mem hi)
    have hget : candidates.getD idx 0 = candidates[idx] := List.getD_eq_getElem _ _ hi
    simp only [placePicks, List.getElem?_eq_getElem hi, Option.bind_eq_bind, Option.bind_some,
      Word.checkedSub_eq hp.left]
    rw [if_pos (by omega), ih (by simpa using hc) fun i hm => hd i (List.mem_cons_of_mem _ hm)]
    refine congrArg some (List.ext_getElem (by simp) fun place h₁ h₂ => ?_)
    simp only [List.getElem_mapIdx, List.getElem_set, List.map_cons, List.mem_cons, hget]
    have hpl : candidates[idx] - 1 = place ↔ place + 1 = candidates[idx] := by omega
    by_cases he : place + 1 = candidates[idx]
    case pos => simp [he, hpl]
    case neg => simp [he, hpl]

theorem evalPickArray_eq {lib : DeclLib} {g : PickArrayGen} {json : List Scalar → String}
    (hr : rng.Lawful) (hg : (GenSpec.pickArray g).Valid lib) : ∃ text s',
    evalPickArray rng json g s = some (text, s') ∧ ∃ picked : List ℕ, picked.Nodup ∧
      (∀ p ∈ picked, p ∈ g.candidates) ∧ g.min ≤ picked.length ∧
      picked.length ≤ min g.max g.candidates.length ∧
      text = json ((List.range' 1 g.length).map fun p =>
        if p ∈ picked then g.pick.getD (.bool true) else g.rest.getD (.bool false)) := by
  obtain ⟨-, -, hle, -, hmin, -, hnd, hin⟩ := hg
  obtain ⟨k, s₁, hk, hlo, hhi⟩ :=
    range_eq (s := s) hr (min_le_right g.min (min g.max g.candidates.length))
  have hkc : k ≤ g.candidates.length := hhi.trans (min_le_right _ _)
  have hs := hr.sample g.candidates.length k s₁ hkc
  have hi : rng.indices g.candidates.length k s₁ = some (rng.sample g.candidates.length k s₁) :=
    if_pos hkc
  generalize rng.sample g.candidates.length k s₁ = drawn at hs hi
  obtain ⟨hdn, hdl, hdi⟩ := hs
  have hp := @placePicks_eq g.candidates drawn.1 (g.pick.getD (.bool true))
    (List.replicate g.length (g.rest.getD (.bool false))) (by simpa using hin) hdi
  refine ⟨_, drawn.2, ?_, drawn.1.map (g.candidates.getD · 0), ?_, ?_, ?_, ?_, rfl⟩
  case refine_1 =>
    unfold evalPickArray
    dsimp only
    rw [bind_of_eq hk, bind_of_eq (a := drawn.1) hi, lift_bind hp, mapIdx_replicate fun p v =>
      if p ∈ drawn.1.map (g.candidates.getD · 0) then g.pick.getD (.bool true) else v]
    rfl
  case refine_2 =>
    refine List.Nodup.map_on (fun i him j hjm he => ?_) hdn
    rw [List.getD_eq_getElem _ _ (hdi i him), List.getD_eq_getElem _ _ (hdi j hjm)] at he
    exact (hnd.getElem_inj_iff).mp he
  case refine_3 =>
    intro p hm
    obtain ⟨i, him, rfl⟩ := List.mem_map.mp hm
    rw [List.getD_eq_getElem _ _ (hdi i him)]
    exact List.getElem_mem _
  case refine_4 =>
    rw [List.length_map, hdl]
    omega
  case refine_5 =>
    rw [List.length_map, hdl]
    exact hhi

end Generated

section Spec

variable {σ : Type} {chrono : Chrono} {json : List Scalar → String} {lib : DeclLib}
  {spec : GenSpec} {now : ℤ}

-- A generator that comes as close to a number as it can.
def Rng.near (k : ℕ) : Rng σ where
  genRange lo hi s       := (max lo (min k hi), s)
  sample _ amount s      := (List.range amount, s)
  fill n s               := (List.replicate n 0, s)

theorem Rng.near_lawful (k : ℕ) : (Rng.near k : Rng σ).Lawful where
  genRange lo hi s h       := ⟨le_max_left .., max_le h (min_le_right ..)⟩
  sample _ amount s h      := by
    refine ⟨List.nodup_range, List.length_range, fun i hi => ?_⟩
    exact (List.mem_range.mp hi).trans_le h
  fill n s                 := List.length_replicate

-- Every draw gives a value that meets the declaration, and every number of a grid is drawn.
def GenSpec.Generates (σ : Type) (lib : DeclLib) (chrono : Chrono) (json : List Scalar → String)
    (spec : GenSpec) (now : ℤ) : Prop :=
  (∀ (rng : Rng σ) (s : σ), rng.Lawful → ∃ text s',
    evalGen rng lib chrono json spec now s = some (text, s') ∧
      Meets lib chrono json spec now text) ∧
  ∀ g, spec = .randomInt g → ∀ k : ℕ, g.min + k * g.step ≤ g.max → ∀ s : σ, ∃ rng : Rng σ,
    rng.Lawful ∧ ∃ s',
      evalGen rng lib chrono json spec now s = some (toString (g.min + k * g.step), s')

-- A format of a date that is not a number has no item that can be read only.
def GenSpec.Writable (lib : DeclLib) (spec : GenSpec) : Prop :=
  ∀ g, spec = .date g →
    g.format = "unix" ∨ g.format = "unix_ms" ∨ .permissiveOffset ∉ lib.strftimeItems g.format

theorem mapM_isSome {α β : Type} {f : α → Option β} {l : List α} :
    (l.mapM f).isSome ↔ ∀ a ∈ l, (f a).isSome := by
  induction l
  case nil => simp
  case cons a l ih =>
    rw [List.mapM_cons, List.forall_mem_cons, ← ih]
    cases f a
    case none   => simp
    case some b => cases l.mapM f <;> simp

theorem writeDate_isSome_iff (hc : chrono.Lawful lib) {g : DateGen} {t : ℤ}
    (hg : (GenSpec.date g).Valid lib) (h₁ : chrono.minUtc ≤ t) (h₂ : t ≤ chrono.maxUtc) :
    (writeDate lib chrono g t).isSome ↔ g.format = "unix" ∨ g.format = "unix_ms" ∨
      .permissiveOffset ∉ lib.strftimeItems g.format := by
  obtain ⟨hf, htz, -⟩ := hg
  unfold writeDate
  split
  case h_1 h => simp [h]
  case h_2 h => simp [h]
  case h_3 hu hm =>
    have hvalid : lib.strftimeValid g.format := (hf.resolve_left hu).resolve_left hm
    have hne : ∀ item ∈ lib.strftimeItems g.format, item ≠ .error := by
      simpa [DeclLib.strftimeValid] using hvalid
    rw [Option.isSome_map, mapM_isSome]
    constructor
    case mp =>
      intro h
      refine .inr (.inr fun hp => ?_)
      exact ((hc.writeItem _ _ _ htz h₁ h₂).mp (h _ hp)).right rfl
    case mpr =>
      intro h item hi
      refine (hc.writeItem _ _ _ htz h₁ h₂).mpr ⟨hne item hi, ?_⟩
      rintro rfl
      exact ((h.resolve_left hu).resolve_left hm) hi

theorem random_int_reached {g : RandomIntGen} (hg : (GenSpec.randomInt g).Valid lib) {k : ℕ}
    (hk : g.min + k * g.step ≤ g.max) (s : σ) : ∃ rng : Rng σ, rng.Lawful ∧ ∃ s',
      evalGen rng lib chrono json (.randomInt g) now s = some (toString (g.min + k * g.step), s') := by
  have hle : k ≤ (g.max - g.min).toNat / g.step := by
    refine (Nat.le_div_iff_mul_le hg.right.right.right.left).mpr ?_
    have hc : ((k * g.step : ℕ) : ℤ) ≤ g.max - g.min := by
      push_cast
      omega
    omega
  refine ⟨Rng.near k, Rng.near_lawful k, s, ?_⟩
  have hr : (Rng.near k).range 0 ((g.max - g.min).toNat / g.step) s = some (k, s) := by
    rw [Rng.range, if_pos (Nat.zero_le _)]
    simp only [Rng.near, min_eq_left hle, Nat.zero_max]
  exact (evalRandomInt_eq hg hr hle).left

-- An accepted declaration is generated without a failure just if it is not a date whose format has
-- an item that can be read only.
theorem generates_iff [Inhabited σ] {m : Mapping} {refresh : Refresh}
    (hc : chrono.Lawful lib) (h : VarDecl.visitMap lib m = .ok (.gen spec refresh))
    (h₁ : chrono.minUtc ≤ now) (h₂ : now ≤ chrono.maxUtc) :
    spec.Generates σ lib chrono json now ↔ spec.Writable lib := by
  have hv := visitMap_valid h
  cases spec
  case date g =>
    have hd := evalDate_eq hv h₁ h₂
    have hw := writeDate_isSome_iff hc hv (le_max_left chrono.minUtc
      (min chrono.maxUtc (now + g.offsetSecs * 1000000000)))
      (max_le (h₁.trans h₂) (min_le_left ..))
    have he (rng : Rng σ) (s : σ) : evalGen rng lib chrono json (.date g) now s =
        (writeDate lib chrono g (max chrono.minUtc (min chrono.maxUtc
          (now + g.offsetSecs * 1000000000)))).map (·, s) := by
      rw [← hd]
      exact lift_apply
    constructor
    case mp =>
      intro hgen g' hg
      obtain rfl := GenSpec.date.inj hg
      obtain ⟨text, s', ht, -⟩ := hgen.left (Rng.near 0) default (Rng.near_lawful 0)
      rw [he, Option.map_eq_some_iff] at ht
      obtain ⟨text, ht, -⟩ := ht
      exact hw.mp (Option.isSome_of_mem ht)
    case mpr =>
      intro hwr
      obtain ⟨text, ht⟩ := Option.isSome_iff_exists.mp (hw.mpr (hwr g rfl))
      refine ⟨fun rng s _ => ⟨text, s, ?_, ht⟩, fun _ hg => by simp at hg⟩
      rw [he, ht, Option.map_some]
  case randomInt g =>
    have hwr : (GenSpec.randomInt g).Writable lib := fun _ hg => by simp at hg
    refine iff_of_true ⟨fun rng s hr => ?_, fun g' hg k hk s => ?_⟩ hwr
    case refine_1 =>
      obtain ⟨k, s', hk, -, hle⟩ :=
        range_eq (s := s) hr (Nat.zero_le ((g.max - g.min).toNat / g.step))
      obtain ⟨he, hmax⟩ := evalRandomInt_eq hv hk hle
      have hpos : 0 ≤ (k : ℤ) * g.step :=
        Int.mul_nonneg (Int.natCast_nonneg _) (Int.natCast_nonneg _)
      exact ⟨_, s', he, _, rfl, by omega, hmax, k, rfl⟩
    case refine_2 =>
      obtain rfl := GenSpec.randomInt.inj hg
      exact random_int_reached hv hk s
  case uuid =>
    refine iff_of_true ⟨fun rng s hr => ?_, fun _ hg => by simp at hg⟩ fun _ hg => by simp at hg
    exact evalUuid_eq hr
  case randomString n =>
    refine iff_of_true ⟨fun rng s hr => ?_, fun _ hg => by simp at hg⟩ fun _ hg => by simp at hg
    exact evalRandomString_eq hr n
  case pickArray g =>
    refine iff_of_true ⟨fun rng s hr => ?_, fun _ hg => by simp at hg⟩ fun _ hg => by simp at hg
    exact evalPickArray_eq hr hv

end Spec

-- The years that are represented, and the texts of the items.
def years : Chrono where
  minUtc := -8334601228800 * 1000000000
  maxUtc := 8210266876799 * 1000000000 + 999999999
  writeItem _ t
    | .literal text     => some text
    | .field specifier  => some s!"{specifier} at {t}"
    | .permissiveOffset => none
    | .error            => none

theorem years_lawful (lib : DeclLib) : years.Lawful lib where
  writeItem tz t item _ _ _ := by cases item <;> simp [years]

-- The offset that may leave out its minutes is an item of its own.
def allDates : DeclLib where
  plain _ _       := ""
  strftimeItems f := if f = "%#z" then [.permissiveOffset] else [.literal f]
  tzValid _       := true

-- All numbers of 64 bits that the step reaches from the least one.
def wideInts : Mapping where
  entries := [("gen", .string "random_int"), ("min", .int ⟨-2 ^ 63, by decide, by decide⟩),
    ("max", .int ⟨2 ^ 63 - 1, by decide, by decide⟩), ("step", .int ⟨7, by decide, by decide⟩)]
  nodup   := by decide

theorem generates_iff_wideInts :
    VarDecl.visitMap allDates wideInts =
      .ok (.gen (.randomInt ⟨-2 ^ 63, 2 ^ 63 - 1, 7⟩) .iteration) ∧
    ((GenSpec.randomInt ⟨-2 ^ 63, 2 ^ 63 - 1, 7⟩).Generates ℕ allDates years (fun _ => "[]") 0 ↔
      (GenSpec.randomInt ⟨-2 ^ 63, 2 ^ 63 - 1, 7⟩).Writable allDates) :=
  ⟨rfl, generates_iff (years_lawful allDates) (m := wideInts) rfl (by decide) (by decide)⟩

def readOnlyDate : Mapping where
  entries := [("gen", .string "date"), ("format", .string "%#z")]
  nodup   := by decide

-- The declaration is accepted, and its value cannot be written.
theorem readOnlyDate_fails :
    VarDecl.visitMap allDates readOnlyDate =
      .ok (.gen (.date ⟨"%#z", none, none, 0⟩) .iteration) ∧
    ¬(GenSpec.date ⟨"%#z", none, none, 0⟩).Generates ℕ allDates years (fun _ => "[]") 0 := by
  refine ⟨rfl, fun h => ?_⟩
  obtain ⟨text, s, ht, -⟩ := h.left (Rng.near 0) 0 (Rng.near_lawful 0)
  have hn : evalGen (Rng.near 0) allDates years (fun _ => "[]")
      (.date ⟨"%#z", none, none, 0⟩) 0 0 = none := by
    have hv : (GenSpec.date ⟨"%#z", none, none, 0⟩).Valid allDates :=
      ⟨.inr (.inr rfl), by simp, by simp⟩
    rw [evalGen, evalDate_eq hv (by decide) (by decide)]
    rfl
  simp [hn] at ht

end Engine
