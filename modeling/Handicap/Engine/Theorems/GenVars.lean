import Handicap.Engine.GenVars

namespace Engine

open Guard

-- How the fields of a declaration are read.
structure View where
  get       : String → Option Yaml
  int       : Yaml → Option ℤ
  step      : Yaml → Option ℤ
  positions : Yaml → Option String
  scalar    : Yaml → Bool

namespace View

variable (v : View)

def Only (allowed : List String) : Prop :=
  ∀ key, key ∉ allowed → v.get key = none

def Refreshes : Prop :=
  ∀ y ∈ v.get "refresh", y = .string "request" ∨ y = .string "iteration"

-- The positions that may be picked, if they can be read.
def candidates (length : ℕ) : Option (List ℕ) :=
  match v.get "positions" with
  | none   => some (List.range' 1 length)
  | some y => (v.positions y).bind fun text => (parsePositions text length).toOption

end View

def Yaml.IsString (y : Yaml) : Prop :=
  (readString y).isSome

def Yaml.IsOffset (y : Yaml) : Prop :=
  ((readString y).bind parseOffsetSecs).isSome

-- What a declaration of a generator says, however its fields are read.
inductive Conforms (v : View) : Prop
  | date
      (gen     : v.get "gen" = some (.string "date"))
      (keys    : v.Only ["gen", "format", "offset", "tz", "refresh"])
      (format  : ∀ y ∈ v.get "format", y.IsString)
      (offset  : ∀ y ∈ v.get "offset", y.IsOffset)
      (tz      : ∀ y ∈ v.get "tz", y.IsString)
      (refresh : v.Refreshes)
  | randomInt (min max : ℤ)
      (gen     : v.get "gen" = some (.string "random_int"))
      (keys    : v.Only ["gen", "min", "max", "step", "refresh"])
      (hmin    : (v.get "min").bind v.int = some min)
      (hmax    : (v.get "max").bind v.int = some max)
      (order   : min ≤ max)
      (step    : ∀ y ∈ v.get "step", ∃ n ∈ v.step y, 1 ≤ n)
      (refresh : v.Refreshes)
  | uuid
      (gen     : v.get "gen" = some (.string "uuid"))
      (keys    : v.Only ["gen", "refresh"])
      (refresh : v.Refreshes)
  | randomString
      (gen     : v.get "gen" = some (.string "random_string"))
      (keys    : v.Only ["gen", "length", "refresh"])
      (length  : ∀ y ∈ v.get "length", ∃ n ∈ v.int y, 1 ≤ n ∧ n ≤ 64)
      (refresh : v.Refreshes)
  | pickArray (length : ℕ) (min max : ℤ) (set : List ℕ)
      (gen     : v.get "gen" = some (.string "pick_array"))
      (keys    : v.Only ["gen", "length", "min", "max", "positions", "pick", "rest", "refresh"])
      (hlength : (v.get "length").bind v.int = some (length : ℤ))
      (hmin    : (v.get "min").bind v.int = some min)
      (hmax    : (v.get "max").bind v.int = some max)
      (bounds  : 1 ≤ length ∧ length ≤ pickArrayMaxLen)
      (order   : 0 ≤ min ∧ min ≤ max ∧ max ≤ length)
      (hset    : v.candidates length = some set)
      (enough  : set ≠ [] ∧ min ≤ set.length)
      (pick    : ∀ y ∈ v.get "pick", v.scalar y)
      (rest    : ∀ y ∈ v.get "rest", v.scalar y)
      (refresh : v.Refreshes)

-- The fields that are left out where they are null.
def nullable : List String :=
  ["format", "offset", "tz", "min", "max", "step", "length"]

-- The fields that ask for a text, which a plain value has too.
def textual : List String :=
  ["gen", "format", "offset", "tz"]

def DeclLib.asText (lib : DeclLib) (key : String) (y : Yaml) : Yaml :=
  (readText lib key y).elim y .string

namespace Mapping

variable (lib : DeclLib) (m : Mapping)

-- The field, unless it is left out.
def found (key : String) : Option Yaml :=
  (m.get key).filter fun y => !(key ∈ nullable && y.isNull)

def engineView : View where
  get key     := (m.found key).map fun y => if key ∈ textual then lib.asText key y else y
  int         := readI64
  step y      := (readU32 y).map Int.ofNat
  positions y := (presentPositions y).toOption
  scalar y    := (presentValue y).isOk

variable {lib m} {key : String}

@[simp]
theorem engineView_step {y : Yaml} : (m.engineView lib).step y = (readU32 y).map Int.ofNat :=
  rfl

@[simp]
theorem engineView_positions {y : Yaml} :
    (m.engineView lib).positions y = (presentPositions y).toOption :=
  rfl

theorem get_eq_none_iff : m.get key = none ↔ key ∉ m.keys := by
  simp only [get, keys, List.lookup_eq_none_iff, List.mem_map, not_exists, not_and]
  constructor
  case mp  => exact fun h e he hk => by simpa [hk] using h e he
  case mpr => exact fun h e he => by simpa using fun hk => h e he hk.symm

theorem found_of_notMem (h : key ∉ nullable) : m.found key = m.get key := by
  simp only [found, h, decide_false, Bool.false_and, Bool.not_false]
  cases m.get key <;> rfl

theorem engineView_get_plain (h : key ∉ textual) : (m.engineView lib).get key = m.found key := by
  simp [engineView, h]

theorem engineView_get_text (h : key ∈ textual) :
    (m.engineView lib).get key = (m.found key).map (lib.asText key) := by
  simp [engineView, h]

theorem engineView_get_of_notMem (h : key ∉ nullable) (ht : key ∉ textual) :
    (m.engineView lib).get key = m.get key :=
  (engineView_get_plain ht).trans (found_of_notMem h)

theorem readString_asText (y : Yaml) : readString (lib.asText key y) = readText lib key y := by
  cases y <;> rfl

theorem optional_of_read {α : Type} {read : Yaml → Option α} {y : Yaml} {a : α}
    (hy : m.get key = some y) (hn : y.isNull = false) (hr : read y = some a) :
    optional m key read = .ok (some a) := by
  rw [optional, hy]
  cases y <;> first | exact absurd hn (by decide) | simp [hr]

theorem optional_of_unread {α : Type} {read : Yaml → Option α} {y : Yaml}
    (hy : m.get key = some y) (hn : y.isNull = false) (hr : read y = none) :
    optional m key read = .error (.invalidType key) := by
  rw [optional, hy]
  cases y <;> first | exact absurd hn (by decide) | simp [hr]

-- A field that is read is one that is found.
theorem optional_eq_found {α : Type} {read : Yaml → Option α} {o : Option α}
    (h : key ∈ nullable) : optional m key read = .ok o ↔
      (∀ y ∈ m.found key, (read y).isSome) ∧ (m.found key).bind read = o := by
  simp only [found, h, decide_true, Bool.true_and]
  cases hy : m.get key
  case none => simp [optional, hy]
  case some y =>
    cases hn : y.isNull
    case true =>
      obtain rfl : y = .null := by cases y <;> first | rfl | simp [Yaml.isNull] at hn
      simp [optional, hy, hn, Option.filter]
    case false =>
      cases hr : read y
      case none   => simp [optional_of_unread hy hn hr, hn, hr, Option.filter]
      case some a => simp [optional_of_read hy hn hr, hn, hr, Option.filter]

theorem optional_eq_ok {α : Type} {read : Yaml → Option α} {o : Option α}
    (h : key ∈ nullable) (ht : key ∉ textual) : optional m key read = .ok o ↔
      (∀ y ∈ (m.engineView lib).get key, (read y).isSome) ∧
        ((m.engineView lib).get key).bind read = o := by
  rw [engineView_get_plain ht, optional_eq_found h]

theorem optional_text_eq_ok {o : Option String} (h : key ∈ nullable) (ht : key ∈ textual) :
    optional m key (readText lib key) = .ok o ↔
      (∀ y ∈ (m.engineView lib).get key, (readString y).isSome) ∧
        ((m.engineView lib).get key).bind readString = o := by
  rw [engineView_get_text ht, optional_eq_found h]
  cases m.found key
  case none   => simp
  case some y => simp [readString_asText]

theorem present_eq_ok {α : Type} {read : Yaml → Except GenError α} {o : Option α}
    (h : key ∉ nullable) (ht : key ∉ textual) : present m key read = .ok o ↔
      (∀ y ∈ (m.engineView lib).get key, (read y).isOk) ∧
        ((m.engineView lib).get key).bind (fun y => (read y).toOption) = o := by
  rw [engineView_get_of_notMem h ht, present]
  cases m.get key
  case none => simp
  case some y =>
    cases hr : read y <;> simp [hr, Except.map, Except.isOk, Except.toBool, Except.toOption]

theorem required_text_eq_ok {a : String} (h : key ∉ nullable) (ht : key ∈ textual) :
    required m key (readText lib key) = .ok a ↔
      ((m.engineView lib).get key).bind readString = some a := by
  rw [engineView_get_text ht, found_of_notMem h, required]
  cases m.get key
  case none   => simp
  case some y => cases hr : readText lib key y <;> simp [hr, readString_asText]

variable (lib) in
-- The fields as they are read where they can be.
def wire (m : Mapping) (gen : String) : GenSpecWire where
  gen
  format    := ((m.engineView lib).get "format").bind readString
  offset    := ((m.engineView lib).get "offset").bind readString
  tz        := ((m.engineView lib).get "tz").bind readString
  min       := ((m.engineView lib).get "min").bind readI64
  max       := ((m.engineView lib).get "max").bind readI64
  step      := ((m.engineView lib).get "step").bind readU32
  length    := ((m.engineView lib).get "length").bind readU32
  positions := ((m.engineView lib).get "positions").bind fun y => (presentPositions y).toOption
  pick      := ((m.engineView lib).get "pick").bind fun y => (presentValue y).toOption
  rest      := ((m.engineView lib).get "rest").bind fun y => (presentValue y).toOption
  refresh   := ((m.engineView lib).get "refresh").bind fun y => (presentRefresh y).toOption

-- Whether a field can be read.
def reads (key : String) (y : Yaml) : Bool :=
  match key with
  | "format" | "offset" | "tz" => (readString y).isSome
  | "min" | "max"              => (readI64 y).isSome
  | "step" | "length"          => (readU32 y).isSome
  | "positions"                => (presentPositions y).isOk
  | "pick" | "rest"            => (presentValue y).isOk
  | "refresh"                  => (presentRefresh y).isOk
  | _                          => true

variable (lib) in
structure Readable (m : Mapping) : Prop where
  keys   : ∀ key ∈ m.keys, key ∈ wireFields
  fields : ∀ key, ∀ y ∈ (m.engineView lib).get key, reads key y

theorem deserialize_eq_ok {w : GenSpecWire} : GenSpecWire.deserialize lib m = .ok w ↔
    m.Readable lib ∧
      ∃ gen, ((m.engineView lib).get "gen").bind readString = some gen ∧ m.wire lib gen = w := by
  simp only [GenSpecWire.deserialize, bind_eq_ok, Unique.exists_iff, PUnit.default_eq_unit,
    pure, Except.pure, Except.ok.injEq]
  constructor
  case mp =>
    rintro ⟨hk, gen, hg, format, hf, offset, ho, tz, ht, min, hmin, max, hmax, step, hs, length, hl,
      positions, hp, pick, hpi, rest, hre, refresh, hr, rfl⟩
    rw [optional_text_eq_ok (by decide) (by decide)] at hf ho ht
    rw [optional_eq_ok (by decide) (by decide)] at hmin hmax hs hl
    rw [present_eq_ok (by decide) (by decide)] at hp hpi hre hr
    rw [required_text_eq_ok (by decide) (by decide)] at hg
    have hk := forM_eq_ok.mp hk
    refine ⟨⟨fun key h => not_not.mp (refuse_eq_ok.mp (hk key h)), fun key y hy => ?_⟩, gen, hg, ?_⟩
    case refine_1 =>
      unfold reads
      split
      case h_1  => exact hf.1 y hy
      case h_2  => exact ho.1 y hy
      case h_3  => exact ht.1 y hy
      case h_4  => exact hmin.1 y hy
      case h_5  => exact hmax.1 y hy
      case h_6  => exact hs.1 y hy
      case h_7  => exact hl.1 y hy
      case h_8  => exact hp.1 y hy
      case h_9  => exact hpi.1 y hy
      case h_10 => exact hre.1 y hy
      case h_11 => exact hr.1 y hy
      case h_12 => rfl
    case refine_2 =>
      simp only [wire, hf.2, ho.2, ht.2, hmin.2, hmax.2, hs.2, hl.2, hp.2, hpi.2, hre.2, hr.2]
  case mpr =>
    rintro ⟨h, gen, hg, rfl⟩
    refine ⟨forM_eq_ok.mpr fun key hk => refuse_eq_ok.mpr (not_not.mpr (h.keys key hk)), gen,
      (required_text_eq_ok (by decide) (by decide)).mpr hg,
      _, (optional_text_eq_ok (by decide) (by decide)).mpr ⟨h.fields "format", rfl⟩,
      _, (optional_text_eq_ok (by decide) (by decide)).mpr ⟨h.fields "offset", rfl⟩,
      _, (optional_text_eq_ok (by decide) (by decide)).mpr ⟨h.fields "tz", rfl⟩,
      _, (optional_eq_ok (by decide) (by decide)).mpr ⟨h.fields "min", rfl⟩,
      _, (optional_eq_ok (by decide) (by decide)).mpr ⟨h.fields "max", rfl⟩,
      _, (optional_eq_ok (by decide) (by decide)).mpr ⟨h.fields "step", rfl⟩,
      _, (optional_eq_ok (by decide) (by decide)).mpr ⟨h.fields "length", rfl⟩,
      _, (present_eq_ok (by decide) (by decide)).mpr ⟨h.fields "positions", rfl⟩,
      _, (present_eq_ok (by decide) (by decide)).mpr ⟨h.fields "pick", rfl⟩,
      _, (present_eq_ok (by decide) (by decide)).mpr ⟨h.fields "rest", rfl⟩,
      _, (present_eq_ok (by decide) (by decide)).mpr ⟨h.fields "refresh", rfl⟩, rfl⟩

-- A field that can be read is there if it is read.
theorem bind_isSome {α β : Type} {o : Option α} {f : α → Option β}
    (h : ∀ a ∈ o, (f a).isSome) : (o.bind f).isSome = o.isSome := by
  cases o
  case none   => rfl
  case some a => simpa using h a rfl

theorem bind_toOption_isSome {α β ε : Type} {o : Option α} {f : α → Except ε β}
    (h : ∀ a ∈ o, (f a).isOk) : (o.bind fun a => (f a).toOption).isSome = o.isSome := by
  refine bind_isSome fun a ha => ?_
  have ho := h a ha
  cases hf : f a
  case ok    => rfl
  case error => simp [hf, Except.isOk, Except.toBool] at ho

theorem Readable.isSome (h : m.Readable lib) {gen : String} :
    (m.wire lib gen).format.isSome = ((m.engineView lib).get "format").isSome ∧
    (m.wire lib gen).offset.isSome = ((m.engineView lib).get "offset").isSome ∧
    (m.wire lib gen).tz.isSome = ((m.engineView lib).get "tz").isSome ∧
    (m.wire lib gen).min.isSome = ((m.engineView lib).get "min").isSome ∧
    (m.wire lib gen).max.isSome = ((m.engineView lib).get "max").isSome ∧
    (m.wire lib gen).step.isSome = ((m.engineView lib).get "step").isSome ∧
    (m.wire lib gen).length.isSome = ((m.engineView lib).get "length").isSome ∧
    (m.wire lib gen).positions.isSome = ((m.engineView lib).get "positions").isSome ∧
    (m.wire lib gen).pick.isSome = ((m.engineView lib).get "pick").isSome ∧
    (m.wire lib gen).rest.isSome = ((m.engineView lib).get "rest").isSome :=
  ⟨bind_isSome (h.fields "format"), bind_isSome (h.fields "offset"), bind_isSome (h.fields "tz"),
    bind_isSome (h.fields "min"), bind_isSome (h.fields "max"), bind_isSome (h.fields "step"),
    bind_isSome (h.fields "length"), bind_toOption_isSome (h.fields "positions"),
    bind_toOption_isSome (h.fields "pick"), bind_toOption_isSome (h.fields "rest")⟩

-- Only fields of the wire are there, so that the others need not be looked at.
theorem Readable.only_iff (h : m.Readable lib) {allowed : List String} :
    (m.engineView lib).Only allowed ↔
      ∀ key ∈ wireFields, key ∉ allowed → (m.engineView lib).get key = none := by
  constructor
  case mp  => exact fun ho key _ hk => ho key hk
  case mpr =>
    intro ho key hk
    by_cases hw : key ∈ wireFields
    case pos => exact ho key hw hk
    case neg =>
      have hn : m.get key = none := get_eq_none_iff.2 fun hm => hw (h.keys key hm)
      simp [engineView, found, hn]

theorem readable_of_only {allowed : List String} (ho : (m.engineView lib).Only allowed)
    (ha : ∀ key ∈ allowed, key ∈ wireFields)
    (h : ∀ key ∈ allowed, ∀ y ∈ (m.engineView lib).get key, reads key y) : m.Readable lib where
  keys key hk := by
    by_contra hw
    have hnw : ∀ key ∈ nullable, key ∈ wireFields := by decide
    have htw : ∀ key ∈ textual, key ∈ wireFields := by decide
    have hn : key ∉ nullable := fun hn => hw (hnw key hn)
    have ht : key ∉ textual := fun ht => hw (htw key ht)
    have hg := ho key fun hm => hw (ha key hm)
    rw [engineView_get_of_notMem hn ht, get_eq_none_iff] at hg
    exact hg hk
  fields key y hy := by
    by_cases hm : key ∈ allowed
    case pos => exact h key hm y hy
    case neg => exact absurd (ho key hm ▸ hy) (by simp)

end Mapping

-- The default format and the texts at the fields of a date pass their checks.
structure DeclLib.Valid (lib : DeclLib) (m : Mapping) : Prop where
  default : lib.strftimeValid "%Y-%m-%d"
  format  : ∀ s, m.get "format" = some (.string s) →
    s = "unix" ∨ s = "unix_ms" ∨ lib.strftimeValid s
  tz      : ∀ s, m.get "tz" = some (.string s) → lib.tzValid s

-- So do the texts that the engine finds there, plain values among them.
structure DeclLib.Passes (lib : DeclLib) (m : Mapping) : Prop where
  format : ∀ s, (m.engineView lib).get "format" = some (.string s) →
    s = "unix" ∨ s = "unix_ms" ∨ lib.strftimeValid s
  tz     : ∀ s, (m.engineView lib).get "tz" = some (.string s) → lib.tzValid s

section

variable {lib : DeclLib} {m : Mapping} {gen : String}

open Mapping

theorem readString_eq_some {y : Yaml} {s : String} (h : readString y = some s) : y = .string s := by
  cases y <;> simp_all [readString]

theorem bind_readString {o : Option Yaml} {s : String} :
    o.bind readString = some s ↔ o = some (.string s) := by
  constructor
  case mp =>
    intro h
    obtain ⟨y, rfl, hs⟩ := Option.bind_eq_some_iff.mp h
    rw [readString_eq_some hs]
  case mpr =>
    rintro rfl
    rfl

theorem passes_of_only {allowed : List String} (ho : (m.engineView lib).Only allowed)
    (hf : "format" ∉ allowed) (ht : "tz" ∉ allowed) : lib.Passes m where
  format s h := by simp [ho "format" hf] at h
  tz s h     := by simp [ho "tz" ht] at h

theorem readI64_of_readU32 {y : Yaml} {k : ℕ} (h : readU32 y = some k) :
    readI64 y = some (k : ℤ) := by
  cases y
  case int n =>
    obtain ⟨⟨h0, hlt⟩, rfl⟩ : (0 ≤ n.val ∧ n.val < 2 ^ 32) ∧ n.val.toNat = k := by
      simpa [readU32] using h
    rw [readI64, if_pos (by omega), Int.toNat_of_nonneg h0]
  all_goals simp [readU32] at h

theorem toUuid_iff (hm : m.Readable lib) :
    (∃ spec, (m.wire lib gen).toUuid = .ok spec) ↔ (m.engineView lib).Only ["gen", "refresh"] := by
  rw [hm.only_iff]
  simp [GenSpecWire.toUuid, bind_eq_ok, hm.isSome, wireFields, pure, Except.pure]

theorem toRandomString_iff (hm : m.Readable lib) :
    (∃ spec, (m.wire lib gen).toRandomString = .ok spec) ↔
      (m.engineView lib).Only ["gen", "length", "refresh"] ∧
        ∀ y ∈ (m.engineView lib).get "length", ∃ n ∈ readI64 y, 1 ≤ n ∧ n ≤ 64 := by
  have hdeny : (m.engineView lib).Only ["gen", "length", "refresh"] ↔
      ¬((m.wire lib gen).format.isSome ∨ (m.wire lib gen).offset.isSome ∨
        (m.wire lib gen).tz.isSome ∨ (m.wire lib gen).min.isSome ∨ (m.wire lib gen).max.isSome ∨
        (m.wire lib gen).step.isSome ∨ (m.wire lib gen).positions.isSome ∨
        (m.wire lib gen).pick.isSome ∨ (m.wire lib gen).rest.isSome) := by
    rw [hm.only_iff]
    simp [hm.isSome, wireFields]
  have hlength : (1 ≤ (m.wire lib gen).length.getD 8 ∧ (m.wire lib gen).length.getD 8 ≤ 64) ↔
      ∀ y ∈ (m.engineView lib).get "length", ∃ n ∈ readI64 y, 1 ≤ n ∧ n ≤ 64 := by
    have hf := hm.fields "length"
    cases hy : (m.engineView lib).get "length"
    case none => simp [wire, hy]
    case some y =>
      have ⟨k, hk⟩ := Option.isSome_iff_exists.mp (hf y hy)
      simp only [wire, hy, Option.bind_some, hk, Option.getD_some, Option.mem_def,
        Option.some.injEq, forall_eq', readI64_of_readU32 hk, exists_eq_left']
      omega
  rw [hdeny, ← hlength]
  simp only [GenSpecWire.toRandomString, bind_eq_ok, refuse_eq_ok, pure, Except.pure, not_not,
    Except.ok.injEq, Unique.exists_iff, exists_and_left, exists_eq', and_true]

theorem toRandomInt_iff (hm : m.Readable lib) :
    (∃ spec, (m.wire lib gen).toRandomInt = .ok spec) ↔
      (m.engineView lib).Only ["gen", "min", "max", "step", "refresh"] ∧
        (∃ min max, ((m.engineView lib).get "min").bind readI64 = some min ∧
          ((m.engineView lib).get "max").bind readI64 = some max ∧ min ≤ max) ∧
        ∀ y ∈ (m.engineView lib).get "step", ∃ n ∈ (m.engineView lib).step y, 1 ≤ n := by
  have hdeny : (m.engineView lib).Only ["gen", "min", "max", "step", "refresh"] ↔
      ¬((m.wire lib gen).format.isSome ∨ (m.wire lib gen).offset.isSome ∨
        (m.wire lib gen).tz.isSome ∨ (m.wire lib gen).length.isSome ∨
        (m.wire lib gen).positions.isSome ∨ (m.wire lib gen).pick.isSome ∨
        (m.wire lib gen).rest.isSome) := by
    rw [hm.only_iff]
    simp [hm.isSome, wireFields]
  have hstep : (m.wire lib gen).step.getD 1 ≠ 0 ↔
      ∀ y ∈ (m.engineView lib).get "step", ∃ n ∈ (m.engineView lib).step y, 1 ≤ n := by
    have hf := hm.fields "step"
    cases hy : (m.engineView lib).get "step"
    case none => simp [wire, hy]
    case some y =>
      have ⟨k, hk⟩ := Option.isSome_iff_exists.mp (hf y hy)
      simp only [wire, hy, engineView_step, Option.bind_some, hk, Option.getD_some, Option.mem_def,
        Option.some.injEq, forall_eq', Option.map_some, exists_eq_left', Int.ofNat_eq_natCast]
      omega
  have hmin : (m.wire lib gen).min = ((m.engineView lib).get "min").bind readI64 := rfl
  have hmax : (m.wire lib gen).max = ((m.engineView lib).get "max").bind readI64 := rfl
  rw [hdeny, ← hstep, ← hmin, ← hmax]
  simp only [GenSpecWire.toRandomInt, bind_eq_ok, refuse_eq_ok, exists_and_left, Unique.exists_iff]
  refine and_congr_right fun _ => ?_
  cases (m.wire lib gen).min
  case none => simp
  case some min =>
    cases (m.wire lib gen).max
    case none     => simp
    case some max => simp [bind_eq_ok, pure, Except.pure]

theorem toDate_iff (hm : m.Readable lib) (hd : lib.strftimeValid "%Y-%m-%d") :
    (∃ spec, (m.wire lib gen).toDate lib = .ok spec) ↔
      (m.engineView lib).Only ["gen", "format", "offset", "tz", "refresh"] ∧
        (∀ y ∈ (m.engineView lib).get "offset", y.IsOffset) ∧ lib.Passes m := by
  have hdeny : (m.engineView lib).Only ["gen", "format", "offset", "tz", "refresh"] ↔
      ¬((m.wire lib gen).min.isSome ∨ (m.wire lib gen).max.isSome ∨
        (m.wire lib gen).step.isSome ∨ (m.wire lib gen).length.isSome ∨
        (m.wire lib gen).positions.isSome ∨ (m.wire lib gen).pick.isSome ∨
        (m.wire lib gen).rest.isSome) := by
    rw [hm.only_iff]
    simp [hm.isSome, wireFields]
  have hf : ¬((m.wire lib gen).format.getD "%Y-%m-%d" ≠ "unix" ∧
      (m.wire lib gen).format.getD "%Y-%m-%d" ≠ "unix_ms" ∧
      ¬lib.strftimeValid ((m.wire lib gen).format.getD "%Y-%m-%d")) ↔
      ∀ s, (m.engineView lib).get "format" = some (.string s) →
        s = "unix" ∨ s = "unix_ms" ∨ lib.strftimeValid s := by
    have hw (s : String) : (m.wire lib gen).format = some s ↔
      (m.engineView lib).get "format" = some (.string s) := bind_readString
    simp only [← hw]
    cases (m.wire lib gen).format
    case none   => simp [hd]
    case some s =>
      rw [Option.getD_some]
      simp only [Option.some.injEq, forall_eq']
      tauto
  have ht : (¬∃ t ∈ (m.wire lib gen).tz, ¬lib.tzValid t) ↔
      ∀ s, (m.engineView lib).get "tz" = some (.string s) → lib.tzValid s := by
    have hw (s : String) : (m.wire lib gen).tz = some s ↔
      (m.engineView lib).get "tz" = some (.string s) := bind_readString
    simp only [← hw, Option.mem_def]
    push Not
    rfl
  have hp : lib.Passes m ↔ (∀ s, (m.engineView lib).get "format" = some (.string s) →
        s = "unix" ∨ s = "unix_ms" ∨ lib.strftimeValid s) ∧
      ∀ s, (m.engineView lib).get "tz" = some (.string s) → lib.tzValid s :=
    ⟨fun h => ⟨h.format, h.tz⟩, fun h => ⟨h.1, h.2⟩⟩
  have hoffset : (∀ o ∈ (m.wire lib gen).offset, (parseOffsetSecs o).isSome) ↔
      ∀ y ∈ (m.engineView lib).get "offset", y.IsOffset := by
    have hf := hm.fields "offset"
    cases hy : (m.engineView lib).get "offset"
    case none => simp [wire, hy]
    case some y =>
      have ⟨o, ho⟩ := Option.isSome_iff_exists.mp (hf y hy)
      simp [wire, hy, ho, Yaml.IsOffset]
  rw [hdeny, ← hoffset, hp, ← hf, ← ht]
  simp only [GenSpecWire.toDate, bind_eq_ok, refuse_eq_ok, exists_and_left, Unique.exists_iff]
  refine and_congr_right fun _ => ?_
  cases (m.wire lib gen).offset
  case none => simp [bind_eq_ok, pure, Except.pure]
  case some o => cases ho : parseOffsetSecs o <;> simp [ho, bind_eq_ok, pure, Except.pure]

theorem wire_candidates (hm : m.Readable lib) (length : ℕ) :
    ((m.wire lib gen).candidates length).toOption = (m.engineView lib).candidates length := by
  have hf := hm.fields "positions"
  cases hy : (m.engineView lib).get "positions"
  case none => simp [GenSpecWire.candidates, View.candidates, wire, hy, Except.toOption]
  case some y =>
    have ⟨text, ht⟩ : ∃ text, presentPositions y = .ok text := by
      have ho : (presentPositions y).isOk := hf y hy
      cases hp : presentPositions y
      case ok text => exact ⟨text, rfl⟩
      case error   => simp [hp, Except.isOk, Except.toBool] at ho
    have hw : (m.wire lib gen).positions = some text := by simp [wire, hy, ht, Except.toOption]
    simp [GenSpecWire.candidates, View.candidates, hw, hy, ht, Except.toOption]

theorem toPickArray_iff (hm : m.Readable lib) :
    (∃ spec, (m.wire lib gen).toPickArray = .ok spec) ↔
      (m.engineView lib).Only
          ["gen", "length", "min", "max", "positions", "pick", "rest", "refresh"] ∧
        ∃ length : ℕ, ∃ min max set,
          ((m.engineView lib).get "length").bind readI64 = some (length : ℤ) ∧
          ((m.engineView lib).get "min").bind readI64 = some min ∧
          ((m.engineView lib).get "max").bind readI64 = some max ∧
          (1 ≤ length ∧ length ≤ pickArrayMaxLen) ∧ (0 ≤ min ∧ min ≤ max ∧ max ≤ length) ∧
          (m.engineView lib).candidates length = some set ∧ (set ≠ [] ∧ min ≤ set.length) := by
  have hdeny : (m.engineView lib).Only
        ["gen", "length", "min", "max", "positions", "pick", "rest", "refresh"] ↔
      ¬((m.wire lib gen).format.isSome ∨ (m.wire lib gen).offset.isSome ∨
        (m.wire lib gen).tz.isSome ∨ (m.wire lib gen).step.isSome) := by
    rw [hm.only_iff]
    simp [hm.isSome, wireFields]
  have hmin : (m.wire lib gen).min = ((m.engineView lib).get "min").bind readI64 := rfl
  have hmax : (m.wire lib gen).max = ((m.engineView lib).get "max").bind readI64 := rfl
  have hlength (length : ℕ) : (m.wire lib gen).length = some length ↔
      ((m.engineView lib).get "length").bind readI64 = some (length : ℤ) := by
    have hf := hm.fields "length"
    cases hy : (m.engineView lib).get "length"
    case none => simp [wire, hy]
    case some y =>
      have ⟨k, hk⟩ := Option.isSome_iff_exists.mp (hf y hy)
      simp [wire, hy, hk, readI64_of_readU32 hk]
  have hset (length : ℕ) : ((m.wire lib gen).candidates length).toOption =
      (m.engineView lib).candidates length := wire_candidates hm length
  rw [hdeny, ← hmin, ← hmax]
  simp only [← hlength, ← hset]
  simp only [GenSpecWire.toPickArray, bind_eq_ok, refuse_eq_ok, exists_and_left, Unique.exists_iff]
  refine and_congr_right fun _ => ?_
  cases (m.wire lib gen).length
  case none => simp
  case some length =>
    cases (m.wire lib gen).min
    case none => simp [bind_eq_ok]
    case some min =>
      cases (m.wire lib gen).max
      case none => simp [bind_eq_ok]
      case some max =>
        cases hc : (m.wire lib gen).candidates length
        case error  => simp [hc, bind_eq_ok, Except.toOption]
        case ok set => simp [hc, bind_eq_ok, Except.toOption, pure, Except.pure, and_assoc]

theorem mapError_eq_ok {ε ε' α : Type} {x : Except ε α} {f : ε → ε'} {a : α} :
    x.mapError f = .ok a ↔ x = .ok a := by
  cases x <;> simp [Except.mapError]

theorem visitMap_eq_ok {d : VarDecl} : VarDecl.visitMap lib m = .ok d ↔
    ∃ gen, m.Readable lib ∧ ((m.engineView lib).get "gen").bind readString = some gen ∧
      ∃ spec, (m.wire lib gen).tryInto lib = .ok spec ∧
        .gen spec ((m.wire lib gen).refresh.getD .iteration) = d := by
  simp only [VarDecl.visitMap, bind_eq_ok, deserialize_eq_ok, mapError_eq_ok, pure, Except.pure,
    Except.ok.injEq]
  constructor
  case mp =>
    rintro ⟨_, ⟨hm, gen, hg, rfl⟩, h⟩
    exact ⟨gen, hm, hg, h⟩
  case mpr =>
    rintro ⟨gen, hm, hg, h⟩
    exact ⟨_, ⟨hm, gen, hg, rfl⟩, h⟩

theorem refreshes_iff :
    (m.engineView lib).Refreshes ↔ ∀ y ∈ (m.engineView lib).get "refresh", reads "refresh" y := by
  refine forall₂_congr fun y _ => ?_
  have hr : reads "refresh" y = (presentRefresh y).isOk := rfl
  rw [hr]
  cases y
  case string s =>
    simp only [presentRefresh, Yaml.string.injEq]
    split
    case isTrue h  => simp [h, Except.isOk, Except.toBool]
    case isFalse h =>
      split
      case isTrue h'  => simp [h', Except.isOk, Except.toBool]
      case isFalse h' => simp [h, h', Except.isOk, Except.toBool]
  all_goals simp [presentRefresh, Except.isOk, Except.toBool]

-- A declaration of a generator is read by its name, once it is readable.
theorem visitMap_of_gen {name : String} (hg : (m.engineView lib).get "gen" = some (.string name)) :
    (∃ d, VarDecl.visitMap lib m = .ok d) ↔
      m.Readable lib ∧ ∃ spec, (m.wire lib name).tryInto lib = .ok spec := by
  simp only [visitMap_eq_ok, hg, Option.bind_some, readString, Option.some.injEq]
  constructor
  case mp =>
    rintro ⟨_, _, hm, rfl, spec, h, -⟩
    exact ⟨hm, spec, h⟩
  case mpr => exact fun ⟨hm, spec, h⟩ => ⟨_, name, hm, rfl, spec, h, rfl⟩

theorem isString_of_isOffset {y : Yaml} (h : y.IsOffset) : y.IsString := by
  cases hr : readString y
  case none   => simp [Yaml.IsOffset, hr] at h
  case some s => simp [Yaml.IsString, hr]

theorem isSome_of_bind {α β : Type} {o : Option α} {f : α → Option β} {b : β}
    (h : o.bind f = some b) : ∀ a ∈ o, (f a).isSome := by
  rintro a rfl
  exact Option.isSome_of_mem h

theorem readU32_isSome {y : Yaml} {n : ℤ} (h : readI64 y = some n) (h0 : 0 ≤ n)
    (hlt : n < 2 ^ 32) : (readU32 y).isSome := by
  cases y
  case int k =>
    obtain ⟨-, rfl⟩ : k.val < 2 ^ 63 ∧ k.val = n := by simpa [readI64] using h
    rw [readU32, if_pos ⟨h0, hlt⟩, Option.isSome_some]
  all_goals simp [readI64] at h

theorem readU32_isSome_of_map {y : Yaml} (h : ∃ n ∈ (m.engineView lib).step y, 1 ≤ n) :
    (readU32 y).isSome := by
  have ⟨n, hn, _⟩ := h
  simpa using Option.isSome_of_mem hn

theorem presentPositions_isOk {length : ℕ} {set : List ℕ} {y : Yaml}
    (h : (m.engineView lib).candidates length = some set)
    (hy : y ∈ (m.engineView lib).get "positions") :
    (presentPositions y).isOk := by
  simp only [View.candidates, Option.mem_def.mp hy, engineView_positions] at h
  cases hp : presentPositions y
  case ok    => rfl
  case error => simp [hp, Except.toOption] at h

-- What conforms can be read.
theorem readable_of_conforms (h : Conforms (m.engineView lib)) : m.Readable lib := by
  cases h
  case date hg hk hf ho ht hr =>
    refine readable_of_only hk (by decide) ?_
    simp only [List.mem_cons, List.not_mem_nil, or_false, forall_eq_or_imp, forall_eq]
    exact ⟨fun _ _ => rfl, hf, fun y hy => isString_of_isOffset (ho y hy), ht,
      refreshes_iff.1 hr⟩
  case randomInt min max hg hk hmin hmax hle hst hr =>
    refine readable_of_only hk (by decide) ?_
    simp only [List.mem_cons, List.not_mem_nil, or_false, forall_eq_or_imp, forall_eq]
    exact ⟨fun _ _ => rfl, isSome_of_bind hmin, isSome_of_bind hmax,
      fun y hy => readU32_isSome_of_map (hst y hy), refreshes_iff.1 hr⟩
  case uuid hg hk hr =>
    refine readable_of_only hk (by decide) ?_
    simp only [List.mem_cons, List.not_mem_nil, or_false, forall_eq_or_imp, forall_eq]
    exact ⟨fun _ _ => rfl, refreshes_iff.1 hr⟩
  case randomString hg hk hl hr =>
    refine readable_of_only hk (by decide) ?_
    simp only [List.mem_cons, List.not_mem_nil, or_false, forall_eq_or_imp, forall_eq]
    refine ⟨fun _ _ => rfl, fun y hy => ?_, refreshes_iff.1 hr⟩
    have ⟨n, hn, h1, h64⟩ := hl y hy
    exact readU32_isSome hn (by omega) (by omega)
  case pickArray length min max set hg hk hl hmin hmax hb hle hc he hp hre hr =>
    refine readable_of_only hk (by decide) ?_
    simp only [List.mem_cons, List.not_mem_nil, or_false, forall_eq_or_imp, forall_eq]
    refine ⟨fun _ _ => rfl, fun y hy => ?_, isSome_of_bind hmin, isSome_of_bind hmax,
      fun y hy => presentPositions_isOk hc hy, hp, hre, refreshes_iff.1 hr⟩
    have hn : (m.engineView lib).int y = some (length : ℤ) := by
      simpa [Option.mem_def.mp hy] using hl
    have hlt : length ≤ 1000 := hb.2
    exact readU32_isSome hn (by omega) (by omega)

-- The engine accepts what conforms as it reads the fields.
theorem visitMap_iff (hd : lib.strftimeValid "%Y-%m-%d") :
    (∃ d, VarDecl.visitMap lib m = .ok d) ↔ Conforms (m.engineView lib) ∧ lib.Passes m := by
  constructor
  case mp =>
    rintro ⟨d, h⟩
    obtain ⟨gen, hm, hg, spec, hs, -⟩ := visitMap_eq_ok.1 h
    have hr : (m.engineView lib).Refreshes := refreshes_iff.2 (hm.fields "refresh")
    obtain ⟨y, hy, hg⟩ := Option.bind_eq_some_iff.mp hg
    obtain rfl := readString_eq_some hg
    unfold GenSpecWire.tryInto at hs
    split at hs
    case h_1 hn =>
      obtain rfl : gen = "date" := hn
      have ⟨hk, ho, hp⟩ := (toDate_iff hm hd).mp ⟨spec, hs⟩
      exact ⟨.date hy hk (hm.fields "format") ho (hm.fields "tz") hr, hp⟩
    case h_2 hn =>
      obtain rfl : gen = "random_int" := hn
      have ⟨hk, ⟨min, max, hmin, hmax, hle⟩, hst⟩ := (toRandomInt_iff hm).mp ⟨spec, hs⟩
      exact ⟨.randomInt min max hy hk hmin hmax hle hst hr,
        passes_of_only hk (by decide) (by decide)⟩
    case h_3 hn =>
      obtain rfl : gen = "uuid" := hn
      have hk := (toUuid_iff hm).mp ⟨spec, hs⟩
      exact ⟨.uuid hy hk hr, passes_of_only hk (by decide) (by decide)⟩
    case h_4 hn =>
      obtain rfl : gen = "random_string" := hn
      have ⟨hk, hl⟩ := (toRandomString_iff hm).mp ⟨spec, hs⟩
      exact ⟨.randomString hy hk hl hr, passes_of_only hk (by decide) (by decide)⟩
    case h_5 hn =>
      obtain rfl : gen = "pick_array" := hn
      have ⟨hk, length, min, max, set, hl, hmin, hmax, hb, ho, hc, he⟩ :=
        (toPickArray_iff hm).mp ⟨spec, hs⟩
      exact ⟨.pickArray length min max set hy hk hl hmin hmax hb ho hc he (hm.fields "pick")
        (hm.fields "rest") hr, passes_of_only hk (by decide) (by decide)⟩
    case h_6 => simp at hs
  case mpr =>
    rintro ⟨h, hp⟩
    have hm := readable_of_conforms h
    cases h
    case date hg hk hf ho ht hr =>
      exact (visitMap_of_gen hg).mpr ⟨hm, (toDate_iff hm hd).mpr ⟨hk, ho, hp⟩⟩
    case randomInt min max hg hk hmin hmax hle hst hr =>
      exact (visitMap_of_gen hg).mpr
        ⟨hm, (toRandomInt_iff hm).mpr ⟨hk, ⟨min, max, hmin, hmax, hle⟩, hst⟩⟩
    case uuid hg hk hr => exact (visitMap_of_gen hg).mpr ⟨hm, (toUuid_iff hm).mpr hk⟩
    case randomString hg hk hl hr =>
      exact (visitMap_of_gen hg).mpr ⟨hm, (toRandomString_iff hm).mpr ⟨hk, hl⟩⟩
    case pickArray length min max set hg hk hl hmin hmax hb hle hc he hp hre hr =>
      exact (visitMap_of_gen hg).mpr
        ⟨hm, (toPickArray_iff hm).mpr ⟨hk, length, min, max, set, hl, hmin, hmax, hb, hle, hc, he⟩⟩

-- The positions of an array that the engine accepts.
theorem pickArray_of_visitMap {pick : PickArrayGen} {refresh : Refresh}
    (h : VarDecl.visitMap lib m = .ok (.gen (.pickArray pick) refresh)) :
    ((m.engineView lib).get "length").bind readU32 = some pick.length ∧
      (m.engineView lib).candidates pick.length = some pick.candidates := by
  have ⟨gen, hm, _, spec, hs, he⟩ := visitMap_eq_ok.1 h
  obtain rfl : spec = .pickArray pick := (VarDecl.gen.inj he).1
  unfold GenSpecWire.tryInto at hs
  split at hs
  case h_1 =>
    simp only [GenSpecWire.toDate, bind_eq_ok] at hs
    obtain ⟨_, _, _, _, hs⟩ := hs
    split at hs
    case h_1 => split at hs <;> simp [bind_eq_ok, pure, Except.pure] at hs
    case h_2 => simp [bind_eq_ok, pure, Except.pure] at hs
  case h_2 =>
    simp only [GenSpecWire.toRandomInt, bind_eq_ok] at hs
    obtain ⟨_, _, hs⟩ := hs
    split at hs <;> simp [bind_eq_ok, pure, Except.pure] at hs
  case h_3 => simp [GenSpecWire.toUuid, bind_eq_ok, pure, Except.pure] at hs
  case h_4 => simp [GenSpecWire.toRandomString, bind_eq_ok, pure, Except.pure] at hs
  case h_5 =>
    simp only [GenSpecWire.toPickArray, bind_eq_ok] at hs
    obtain ⟨_, _, hs⟩ := hs
    split at hs
    case h_1 => simp at hs
    case h_2 length hl =>
      obtain ⟨_, _, hs⟩ := bind_eq_ok.mp hs
      split at hs
      case h_2 => simp at hs
      case h_1 =>
        simp only [bind_eq_ok, pure, Except.pure, Except.ok.injEq, GenSpec.pickArray.injEq] at hs
        obtain ⟨_, _, _, _, _, _, set, hset, _, _, _, _, rfl⟩ := hs
        refine ⟨hl, ?_⟩
        rw [← wire_candidates hm, hset]
        rfl
  case h_6 => simp at hs

end

end Engine
