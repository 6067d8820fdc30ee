import Handicap.Engine.Theorems.GenVars
import Handicap.Ui.GenVars
import Handicap.Ui.Theorems.PickArray
import Mathlib.Data.Rat.Floor

-- Where the editor accepts a generator if and only if the engine does.
namespace Ui

open Engine (Yaml Mapping View Conforms DeclLib nullable textual)

-- A whole number as the editor reads it.
def whole (y : Yaml) : Option ℤ :=
  (Schema.int y).map Rat.num

def editorView (t : NumberText) (m : Mapping) : View where
  get       := m.get
  int       := whole
  step      := whole
  positions := Schema.positions t
  scalar y  := (Schema.jsonScalar y).isSome

section

variable {lib : DeclLib} {t : NumberText} {m : Mapping} {key : String}

theorem optional_eq_some {α : Type} {schema : Yaml → Option α} {o : Option α} :
    optional m key schema = some o ↔
      (∀ y ∈ m.get key, (schema y).isSome) ∧ (m.get key).bind schema = o := by
  rw [optional]
  cases m.get key
  case none   => simp
  case some y => cases h : schema y <;> simp [h]

theorem strict_eq_some {allowed : List String} {u : Unit} :
    strict m allowed = some u ↔ (editorView t m).Only allowed := by
  have hs : strict m allowed = some u ↔ ∀ key ∈ m.keys, key ∈ allowed := by
    simp [strict, guard]
  simp only [hs, View.Only, editorView, Mapping.get_eq_none_iff]
  exact forall_congr' fun _ => not_imp_not.symm

theorem int_eq (y : Yaml) : Schema.int y = (whole y).map fun n : ℤ => (n : ℚ) := by
  cases h : Schema.int y
  case none   => simp [whole, h]
  case some q =>
    have hq : q.isInt := (Option.filter_eq_some_iff.mp h).2
    have hn : ((q.num : ℤ) : ℚ) = q := Rat.coe_int_num_of_den_eq_one (by simpa [Rat.isInt] using hq)
    simp [whole, h, hn]

theorem refresh_iff :
    (editorView t m).Refreshes ↔ ∀ y ∈ m.get "refresh", (Schema.refresh y).isSome := by
  refine forall₂_congr fun y _ => ?_
  cases y
  case string s =>
    simp only [Schema.refresh, Yaml.string.injEq]
    split
    case isTrue h  => simp [h]
    case isFalse h => 
      split
      case isTrue h' => simp [h']
      case isFalse h' => simp [h, h']
  all_goals simp [Schema.refresh]

theorem string_isSome {y : Yaml} : (Schema.string y).isSome ↔ y.IsString := by
  cases y <;> simp [Schema.string, Yaml.IsString, Engine.readString]

-- The editor has no bound on the number of a value.
theorem jsonScalar_isSome {y : Yaml} (hw : ∀ n, y ≠ .wide n) :
    (Schema.jsonScalar y).isSome = (Engine.presentValue y).isOk := by
  cases y
  case string s =>
    have hb : pickValueTooLong s ↔ Engine.pickValueMaxChars < s.length := decide_eq_true_iff
    simp only [Schema.jsonScalar, hb, Engine.presentValue]
    split <;> rfl
  case wide n => exact absurd rfl (hw n)
  all_goals rfl

theorem unitSeconds_isSome {c : Char} :
    (Engine.unitSeconds c).isSome ↔ c ∈ ['s', 'm', 'h', 'd'] := by
  unfold Engine.unitSeconds
  split <;> simp_all

theorem isOffset_iff (s : String) :
    Schema.isOffset s.toList ↔ (Engine.parseOffsetSecs s).isSome := by
  rw [Engine.parseOffsetSecs]
  cases s.toList
  case nil => simp [Schema.isOffset]
  case cons sign rest =>
    have hu : rest.getLast?.any (· ∈ ['s', 'm', 'h', 'd']) ↔
        (rest.getLast?.bind Engine.unitSeconds).isSome := by
      cases rest.getLast?
      case none   => simp
      case some c => simp [unitSeconds_isSome]
    have hl : rest.dropLast.length ∈ List.range' 1 9 ↔
        ¬(rest.dropLast = [] ∨ 9 < rest.dropLast.length) := by
      rw [List.mem_range'_1, ← List.length_eq_zero_iff]
      omega
    simp only [Schema.isOffset, Bool.and_eq_true, decide_eq_true_eq, hu, hl]
    split
    case isTrue h =>
      refine iff_of_false (fun hc => ?_) (by simp)
      have ⟨⟨⟨hs, _⟩, hn⟩, hd⟩ := hc
      exact h.elim (fun h => h hs) fun h => h.elim (fun h => hn (.inl h))
        fun h => h.elim (fun h => hn (.inr h)) fun h => h hd
    case isFalse h =>
      push Not at h
      have ⟨hs, hn, hl, hd⟩ := h
      rw [Option.isSome_map]
      exact ⟨fun hc => hc.1.1.2, fun hc => ⟨⟨⟨hs, hc⟩, fun h => h.elim hn hl.not_gt⟩, hd⟩⟩

theorem whole_isSome {y : Yaml} {p : ℚ → Bool} :
    ((Schema.int y).filter p).isSome ↔ ∃ n ∈ whole y, p n := by
  rw [int_eq]
  cases whole y <;> simp [Option.filter_some]

theorem offset_isSome {y : Yaml} : (Schema.offset y).isSome ↔ y.IsOffset := by
  cases y
  case string s =>
    simp [Schema.offset, Schema.string, Yaml.IsOffset, Engine.readString, ← isOffset_iff,
      Option.filter]
  all_goals simp [Schema.offset, Schema.string, Yaml.IsOffset, Engine.readString]

-- The positions that may be picked are the same ones, however the text of them was found.
theorem candidates_eq {length : ℕ} {positions : Option String}
    (hb : 1 ≤ length ∧ length ≤ pickArrayMaxLen)
    (hr : ∀ y ∈ m.get "positions", (Schema.positions t y).isSome)
    (hp : (m.get "positions").bind (Schema.positions t) = positions) :
    (editorView t m).candidates length = candidatesOf (length : ℕ) positions := by
  have hl : ¬¬isPickLength (length : ℕ) := not_not.mpr (isPickLength_iff.mpr hb)
  rw [candidatesOf.eq_def, if_neg hl]
  subst hp
  cases hy : m.get "positions"
  case none => simp [View.candidates, editorView, hy]
  case some y =>
    obtain ⟨text, ht⟩ := Option.isSome_iff_exists.mp (hr y hy)
    simp [View.candidates, editorView, hy, ht, parsePositions_eq]

theorem positionIssues_eq_nil {length : ℕ} {min : ℚ} {positions : Option String}
    (hb : 1 ≤ length ∧ length ≤ pickArrayMaxLen) :
    positionIssues length min positions = [] ↔
      ∃ set, candidatesOf (length : ℕ) positions = some set ∧ set ≠ [] ∧ min ≤ set.length := by
  have hl : ¬¬isPickLength (length : ℕ) := not_not.mpr (isPickLength_iff.mpr hb)
  rw [positionIssues.eq_def, candidatesOf.eq_def, if_neg hl, if_neg hl]
  cases positions
  case none =>
    have hn : length ≠ 0 := fun h => by simp [h] at hb
    by_cases hm : length < min <;> simp [hn, hm, not_lt.mp]
  case some text =>
    cases hp : parsePositions text (length : ℕ)
    case error e =>
      by_cases hc : positionsMaxChars < utf16Length text.toList <;> simp [hc, hp, Except.toOption]
    case ok set =>
      have hc : ¬positionsMaxChars < utf16Length text.toList := by
        intro hc
        rw [parsePositions.eq_def, if_neg hl, if_pos hc] at hp
        simp at hp
      by_cases hs : set = []
      case pos => simp [hc, hp, hs, Except.toOption]
      case neg =>
        by_cases hm : set.length < min <;> simp [hc, hp, hs, hm, Except.toOption, not_lt.mp]

theorem genSpecModel_isSome : (genSpecModel t m).isSome ↔
    ∃ spec, discriminated t m = some spec ∧ superRefine spec = [] := by
  rw [genSpecModel]
  cases discriminated t m <;> simp [Option.filter]

theorem dateGenModel_iff : (∃ spec, dateGenModel m = some spec ∧ superRefine spec = []) ↔
    (editorView t m).Only ["gen", "format", "offset", "tz", "refresh"] ∧
      (∀ y ∈ m.get "format", y.IsString) ∧ (∀ y ∈ m.get "offset", y.IsOffset) ∧
      (∀ y ∈ m.get "tz", y.IsString) ∧ (editorView t m).Refreshes := by
  simp only [dateGenModel, Option.bind_eq_bind, Option.bind_eq_some_iff, optional_eq_some,
    strict_eq_some (t := t), refresh_iff, string_isSome, offset_isSome]
  constructor
  case mp =>
    rintro ⟨_, ⟨_, ⟨hf, -⟩, _, ⟨ho, -⟩, _, ⟨ht, -⟩, _, ⟨hr, -⟩, _, hk, _⟩, _⟩
    exact ⟨hk, hf, ho, ht, hr⟩
  case mpr =>
    rintro ⟨hk, hf, ho, ht, hr⟩
    exact ⟨_, ⟨_, ⟨hf, rfl⟩, _, ⟨ho, rfl⟩, _, ⟨ht, rfl⟩, _, ⟨hr, rfl⟩, (), hk, rfl⟩, rfl⟩

theorem required_int {q : ℚ} : required m key Schema.int = some q ↔
    ∃ n : ℤ, (m.get key).bind whole = some n ∧ n = q := by
  rw [required]
  cases m.get key
  case none   => simp
  case some y => simp [int_eq]

theorem required_filter {q : ℚ} {p : ℚ → Bool} :
    (required m key fun v => (Schema.int v).filter p) = some q ↔
      ∃ n : ℤ, (m.get key).bind whole = some n ∧ p n ∧ n = q := by
  rw [required]
  cases m.get key
  case none => simp
  case some y =>
    simp only [int_eq, Option.bind_some, Option.filter_eq_some_iff, Option.map_eq_some_iff]
    constructor
    case mp  => exact fun ⟨⟨n, hn, he⟩, hp⟩ => ⟨n, hn, he ▸ hp, he⟩
    case mpr => exact fun ⟨n, hn, hp, he⟩ => ⟨⟨n, hn, he⟩, he ▸ hp⟩

theorem randomIntGenModel_iff :
    (∃ spec, randomIntGenModel m = some spec ∧ superRefine spec = []) ↔
      (editorView t m).Only ["gen", "min", "max", "step", "refresh"] ∧
        (∃ min max, (m.get "min").bind whole = some min ∧ (m.get "max").bind whole = some max ∧
          min ≤ max) ∧
        (∀ y ∈ m.get "step", ∃ n ∈ whole y, 1 ≤ n) ∧ (editorView t m).Refreshes := by
  have hs (n : ℤ) : (decide (1 ≤ (n : ℚ)) : Bool) ↔ 1 ≤ n := by
    rw [decide_eq_true_iff]
    exact_mod_cast Iff.rfl
  simp only [randomIntGenModel, Option.bind_eq_bind, Option.bind_eq_some_iff, optional_eq_some,
    strict_eq_some (t := t), refresh_iff, required_int, whole_isSome, hs]
  constructor
  case mp =>
    rintro ⟨_, ⟨_, ⟨min, hmin, rfl⟩, _, ⟨max, hmax, rfl⟩, _, ⟨hst, -⟩, _, ⟨hr, -⟩, _, hk, hp⟩, hi⟩
    obtain rfl := Option.some.inj hp
    refine ⟨hk, ⟨min, max, hmin, hmax, ?_⟩, hst, hr⟩
    simpa [superRefine] using hi
  case mpr =>
    rintro ⟨hk, ⟨min, max, hmin, hmax, hle⟩, hst, hr⟩
    refine ⟨_, ⟨_, ⟨min, hmin, rfl⟩, _, ⟨max, hmax, rfl⟩, _, ⟨hst, rfl⟩, _, ⟨hr, rfl⟩, (), hk,
      rfl⟩, ?_⟩
    simpa [superRefine] using hle

theorem uuidGenModel_iff : (∃ spec, uuidGenModel m = some spec ∧ superRefine spec = []) ↔
    (editorView t m).Only ["gen", "refresh"] ∧ (editorView t m).Refreshes := by
  simp only [uuidGenModel, Option.bind_eq_bind, Option.bind_eq_some_iff, optional_eq_some,
    strict_eq_some (t := t), refresh_iff]
  constructor
  case mp =>
    rintro ⟨_, ⟨_, ⟨hr, -⟩, _, hk, -⟩, -⟩
    exact ⟨hk, hr⟩
  case mpr => exact fun ⟨hk, hr⟩ => ⟨_, ⟨_, ⟨hr, rfl⟩, (), hk, rfl⟩, rfl⟩

theorem randomStringGenModel_iff :
    (∃ spec, randomStringGenModel m = some spec ∧ superRefine spec = []) ↔
      (editorView t m).Only ["gen", "length", "refresh"] ∧
        (∀ y ∈ m.get "length", ∃ n ∈ whole y, 1 ≤ n ∧ n ≤ 64) ∧ (editorView t m).Refreshes := by
  have hl (n : ℤ) : (1 ≤ (n : ℚ) && (n : ℚ) ≤ 64 : Bool) ↔ 1 ≤ n ∧ n ≤ 64 := by
    rw [Bool.and_eq_true, decide_eq_true_iff, decide_eq_true_iff]
    exact_mod_cast Iff.rfl
  simp only [randomStringGenModel, Option.bind_eq_bind, Option.bind_eq_some_iff, optional_eq_some,
    strict_eq_some (t := t), refresh_iff, whole_isSome, hl]
  constructor
  case mp =>
    rintro ⟨_, ⟨_, ⟨hn, -⟩, _, ⟨hr, -⟩, _, hk, -⟩, -⟩
    exact ⟨hk, hn, hr⟩
  case mpr => exact fun ⟨hk, hn, hr⟩ => ⟨_, ⟨_, ⟨hn, rfl⟩, _, ⟨hr, rfl⟩, (), hk, rfl⟩, rfl⟩

theorem superRefine_pickArray {length : ℕ} {min max : ℤ} {positions : Option String}
    {pick rest : Option PickScalar} (hb : 1 ≤ length ∧ length ≤ pickArrayMaxLen) :
    superRefine (.pickArray length min max positions pick rest) = [] ↔
      (min ≤ max ∧ max ≤ length) ∧
        ∃ set, candidatesOf (length : ℕ) positions = some set ∧ set ≠ [] ∧ min ≤ set.length := by
  simp only [superRefine, List.append_eq_nil_iff, positionIssues_eq_nil hb, ite_eq_right_iff,
    List.cons_ne_nil, imp_false, not_lt, Int.cast_le]
  exact_mod_cast Iff.rfl

theorem pickArrayGenModel_iff :
    (∃ spec, pickArrayGenModel t m = some spec ∧ superRefine spec = []) ↔
      (editorView t m).Only
          ["gen", "length", "min", "max", "positions", "pick", "rest", "refresh"] ∧
        (∃ length : ℕ, ∃ min max set, (m.get "length").bind whole = some (length : ℤ) ∧
          (m.get "min").bind whole = some min ∧ (m.get "max").bind whole = some max ∧
          (1 ≤ length ∧ length ≤ Engine.pickArrayMaxLen) ∧ (0 ≤ min ∧ min ≤ max ∧ max ≤ length) ∧
          (editorView t m).candidates length = some set ∧ (set ≠ [] ∧ min ≤ set.length)) ∧
        (∀ y ∈ m.get "pick", (Schema.jsonScalar y).isSome) ∧
        (∀ y ∈ m.get "rest", (Schema.jsonScalar y).isSome) ∧
        (editorView t m).Refreshes := by
  have hl (n : ℤ) : (1 ≤ (n : ℚ) && (n : ℚ) ≤ pickArrayMaxLen : Bool) ↔
      1 ≤ n ∧ n ≤ pickArrayMaxLen := by
    rw [Bool.and_eq_true, decide_eq_true_iff, decide_eq_true_iff]
    exact_mod_cast Iff.rfl
  have h0 (n : ℤ) : (decide (0 ≤ (n : ℚ)) : Bool) ↔ 0 ≤ n := by
    rw [decide_eq_true_iff]
    exact_mod_cast Iff.rfl
  simp only [pickArrayGenModel, Option.bind_eq_bind, Option.bind_eq_some_iff, optional_eq_some,
    strict_eq_some (t := t), refresh_iff, required_filter, hl, h0]
  constructor
  case mp =>
    rintro ⟨_, ⟨_, ⟨n, hn, hb, rfl⟩, _, ⟨min, hmin, h0, rfl⟩, _, ⟨max, hmax, -, rfl⟩,
      positions, ⟨hpos, hp⟩, _, ⟨hpick, -⟩, _, ⟨hrest, -⟩, _, ⟨hr, -⟩, _, hk, he⟩, hi⟩
    obtain rfl := Option.some.inj he
    obtain ⟨length, rfl⟩ : ∃ length : ℕ, n = length := ⟨n.toNat, by omega⟩
    have hb : 1 ≤ length ∧ length ≤ pickArrayMaxLen := by omega
    obtain ⟨hle, set, hset, he⟩ := (superRefine_pickArray hb).mp (by exact_mod_cast hi)
    rw [← candidates_eq hb hpos hp] at hset
    exact ⟨hk, ⟨length, min, max, set, hn, hmin, hmax, hb, ⟨h0, hle⟩, hset, by exact_mod_cast he⟩,
      hpick, hrest, hr⟩
  case mpr =>
    rintro ⟨hk, ⟨length, min, max, set, hn, hmin, hmax, hb, ⟨h0, hle⟩, hset, he⟩, hpick, hrest, hr⟩
    have hb : 1 ≤ length ∧ length ≤ pickArrayMaxLen := hb
    have hpos : ∀ y ∈ m.get "positions", (Schema.positions t y).isSome := by
      intro y hy
      simp only [View.candidates, editorView, Option.mem_def.mp hy] at hset
      cases hs : Schema.positions t y
      case none   => simp [hs] at hset
      case some p => rfl
    rw [candidates_eq hb hpos rfl] at hset
    refine ⟨_, ⟨_, ⟨length, hn, by omega, rfl⟩, _, ⟨min, hmin, h0, rfl⟩,
      _, ⟨max, hmax, h0.trans hle.1, rfl⟩, _, ⟨hpos, rfl⟩, _, ⟨hpick, rfl⟩, _, ⟨hrest, rfl⟩,
      _, ⟨hr, rfl⟩, (), hk, rfl⟩, ?_⟩
    exact_mod_cast (superRefine_pickArray hb).mpr ⟨hle, set, hset, by exact_mod_cast he⟩

-- The editor accepts what conforms as it reads the fields.
theorem genSpecModel_iff : (genSpecModel t m).isSome ↔ Conforms (editorView t m) := by
  rw [genSpecModel_isSome]
  constructor
  case mp =>
    rintro ⟨spec, hs, hi⟩
    unfold discriminated at hs
    split at hs
    case h_1 hg =>
      have ⟨hk, hf, ho, ht, hr⟩ := (dateGenModel_iff (t := t)).mp ⟨spec, hs, hi⟩
      exact .date hg hk hf ho ht hr
    case h_2 hg =>
      have ⟨hk, ⟨min, max, hmin, hmax, hle⟩, hst, hr⟩ :=
        (randomIntGenModel_iff (t := t)).mp ⟨spec, hs, hi⟩
      exact .randomInt min max hg hk hmin hmax hle hst hr
    case h_3 hg =>
      have ⟨hk, hr⟩ := (uuidGenModel_iff (t := t)).mp ⟨spec, hs, hi⟩
      exact .uuid hg hk hr
    case h_4 hg =>
      have ⟨hk, hl, hr⟩ := (randomStringGenModel_iff (t := t)).mp ⟨spec, hs, hi⟩
      exact .randomString hg hk hl hr
    case h_5 hg =>
      have ⟨hk, ⟨length, min, max, set, hl, hmin, hmax, hb, hle, hc, he⟩, hp, hre, hr⟩ :=
        pickArrayGenModel_iff.1 ⟨spec, hs, hi⟩
      exact .pickArray length min max set hg hk hl hmin hmax hb hle hc he hp hre hr
    case h_6 => simp at hs
  case mpr =>
    intro h
    cases h
    case date hg hk hf ho ht hr =>
      simpa only [discriminated, show m.get "gen" = _ from hg] using
        dateGenModel_iff.2 ⟨hk, hf, ho, ht, hr⟩
    case randomInt min max hg hk hmin hmax hle hst hr =>
      simpa only [discriminated, show m.get "gen" = _ from hg] using
        randomIntGenModel_iff.2 ⟨hk, ⟨min, max, hmin, hmax, hle⟩, hst, hr⟩
    case uuid hg hk hr =>
      simpa only [discriminated, show m.get "gen" = _ from hg] using uuidGenModel_iff.2 ⟨hk, hr⟩
    case randomString hg hk hl hr =>
      simpa only [discriminated, show m.get "gen" = _ from hg] using
        randomStringGenModel_iff.2 ⟨hk, hl, hr⟩
    case pickArray length min max set hg hk hl hmin hmax hb hle hc he hp hre hr =>
      simpa only [discriminated, show m.get "gen" = _ from hg] using
        pickArrayGenModel_iff.2
          ⟨hk, ⟨length, min, max, set, hl, hmin, hmax, hb, hle, hc, he⟩, hp, hre, hr⟩

-- The declaration with the fields and the texts that the engine finds, whose numbers and values are
-- read as the editor reads them.
def laxView (lib : DeclLib) (t : NumberText) (m : Mapping) : View :=
  { editorView t m with get := (m.engineView lib).get }

-- A value that is written plainly and is no text of its own.
def IsPlainValue : Yaml → Prop
  | .string _ | .sequence _ | .mapping _ => False
  | _                                    => True

-- No field that the engine would leave out is null, and texts are written as texts.
structure Strict (m : Mapping) : Prop where
  noNull : ∀ key ∈ nullable, m.get key ≠ some .null
  quoted : ∀ key ∈ textual, ∀ y ∈ m.get key, ¬IsPlainValue y

-- The numbers are integers that the engine has room for, and their order is not one that only
-- rounding gives.
structure Narrow (m : Mapping) : Prop where
  noFloat : ∀ key ∈ ["min", "max", "step", "length", "positions"], ∀ q, m.get key ≠ some (.float q)
  noWide  : ∀ key ∈ ["min", "max", "step", "length", "positions", "pick", "rest"], ∀ n,
    m.get key ≠ some (.wide n)
  bound   : ∀ key ∈ ["min", "max"], ∀ n, m.get key = some (.int n) → n.val < 2 ^ 63
  step    : ∀ n, m.get "step" = some (.int n) → n.val < 2 ^ 32
  order   : ∀ n n', m.get "min" = some (.int n) → m.get "max" = some (.int n') → n.val ≤ n'.val

theorem engineView_get_eq {y : Yaml} (ht : key ∉ textual) (hn : y.isNull = false) :
    (m.engineView lib).get key = some y ↔ m.get key = some y := by
  simp [Mapping.engineView_get_plain ht, Mapping.found, Option.filter_eq_some_iff, hn]

theorem whole_int (n : Engine.YamlInt) : whole (.int n) = some (Rounding.roundInt 53 n.val) := by
  simp [whole, Schema.int, Schema.number, Option.filter_some, Rat.isInt]

theorem whole_eq_some {y : Yaml} {k : ℤ} (h : whole y = some k) (hf : ∀ q, y ≠ .float q)
    (hw : ∀ n, y ≠ .wide n) : ∃ n, y = .int n ∧ Rounding.roundInt 53 n.val = k := by
  cases y
  case int n   => exact ⟨n, rfl, by simpa [whole_int] using h⟩
  case float q => exact absurd rfl (hf q)
  case wide n  => exact absurd rfl (hw n)
  all_goals simp [whole, Schema.int, Schema.number] at h

theorem asText_of_not_plain {y : Yaml} (h : ¬IsPlainValue y) : lib.asText key y = y := by
  cases y
  case string   => rfl
  case sequence => rfl
  case mapping  => rfl
  all_goals exact absurd trivial h

theorem Strict.view_eq (h : Strict m) : laxView lib t m = editorView t m := by
  have hf (key : String) : m.found key = m.get key := by
    by_cases hk : key ∈ nullable
    case pos =>
      cases hy : m.get key
      case none => simp [Mapping.found, hy]
      case some y =>
        have hn : y.isNull = false := by
          cases y
          case null => exact absurd hy (h.noNull key hk)
          all_goals rfl
        simp [Mapping.found, hy, hn, Option.filter]
    case neg => exact Mapping.found_of_notMem hk
  have hg (key : String) : (m.engineView lib).get key = m.get key := by
    by_cases ht : key ∈ textual
    case pos =>
      rw [Mapping.engineView_get_text ht, hf]
      cases hy : m.get key
      case none   => rfl
      case some y => exact congrArg some (asText_of_not_plain (h.quoted key ht y hy))
    case neg => rw [Mapping.engineView_get_plain ht, hf]
  simp [laxView, editorView, funext hg]

theorem whole_null : whole .null = none :=
  rfl

theorem ne_null_of_only {v : View} {allowed : List String} (h : v.Only allowed)
    (hk : key ∉ allowed) : v.get key ≠ some .null :=
  fun hn => by simp [h key hk] at hn

theorem ne_null_of_bind {v : View} {k : ℤ} (h : (v.get key).bind whole = some k) :
    v.get key ≠ some .null :=
  fun hn => by simp [hn, whole_null] at h

theorem noNull_of_conforms (h : Conforms (editorView t m)) :
    ∀ key ∈ nullable, m.get key ≠ some .null := by
  have hnull {key : String} {p : Yaml → Prop} (h : ∀ y ∈ m.get key, p y) (hp : ¬p .null) :
      m.get key ≠ some .null := fun hn => hp (h .null hn)
  have hn {p : ℤ → Prop} : ¬∃ n ∈ whole .null, p n := by simp [whole_null]
  simp only [nullable, List.forall_mem_cons, List.not_mem_nil, false_implies, implies_true,
    and_true]
  cases h
  case date hg hk hf ho ht hr =>
    have hd {key : String} := @ne_null_of_only key _ _ hk
    exact ⟨hnull hf (by simp [Yaml.IsString, Engine.readString]),
      hnull ho (by simp [Yaml.IsOffset, Engine.readString]),
      hnull ht (by simp [Yaml.IsString, Engine.readString]),
      hd (by decide), hd (by decide), hd (by decide), hd (by decide)⟩
  case randomInt min max hg hk hmin hmax hle hst hr =>
    have hd {key : String} := @ne_null_of_only key _ _ hk
    exact ⟨hd (by decide), hd (by decide), hd (by decide), ne_null_of_bind hmin,
      ne_null_of_bind hmax, hnull hst hn, hd (by decide)⟩
  case uuid hg hk hr =>
    have hd {key : String} := @ne_null_of_only key _ _ hk
    exact ⟨hd (by decide), hd (by decide), hd (by decide), hd (by decide), hd (by decide),
      hd (by decide), hd (by decide)⟩
  case randomString hg hk hl hr =>
    have hd {key : String} := @ne_null_of_only key _ _ hk
    exact ⟨hd (by decide), hd (by decide), hd (by decide), hd (by decide), hd (by decide),
      hd (by decide), hnull hl hn⟩
  case pickArray length min max set hg hk hl hmin hmax hb hle hc he hp hre hr =>
    have hd {key : String} := @ne_null_of_only key _ _ hk
    exact ⟨hd (by decide), hd (by decide), hd (by decide), ne_null_of_bind hmin,
      ne_null_of_bind hmax, hd (by decide), ne_null_of_bind hl⟩

theorem not_plain_of_isString {y : Yaml} (h : y.IsString) : ¬IsPlainValue y := by
  cases y
  case string => exact id
  all_goals simp [Yaml.IsString, Engine.readString] at h

theorem quoted_of_conforms (h : Conforms (editorView t m)) :
    ∀ key ∈ textual, ∀ y ∈ m.get key, ¬IsPlainValue y := by
  have hgen {name : String} (h : m.get "gen" = some (.string name)) :
      ∀ y ∈ m.get "gen", ¬IsPlainValue y := by
    intro y hy
    obtain rfl : .string name = y := Option.some.inj (h.symm.trans hy)
    exact id
  have hnone {allowed : List String} (h : (editorView t m).Only allowed) {key : String}
      (hk : key ∉ allowed) : ∀ y ∈ m.get key, ¬IsPlainValue y := by
    intro y hy
    have hg : m.get key = none := h key hk
    simp [hg] at hy
  simp only [textual, List.forall_mem_cons, List.not_mem_nil, false_implies, implies_true, and_true]
  cases h
  case date hg hk hf ho ht hr =>
    exact ⟨hgen hg, fun y hy => not_plain_of_isString (hf y hy),
      fun y hy => not_plain_of_isString (Engine.isString_of_isOffset (ho y hy)),
      fun y hy => not_plain_of_isString (ht y hy)⟩
  case randomInt hg hk hmin hmax hle hst hr =>
    exact ⟨hgen hg, hnone hk (by decide), hnone hk (by decide), hnone hk (by decide)⟩
  case uuid hg hk hr =>
    exact ⟨hgen hg, hnone hk (by decide), hnone hk (by decide), hnone hk (by decide)⟩
  case randomString hg hk hl hr =>
    exact ⟨hgen hg, hnone hk (by decide), hnone hk (by decide), hnone hk (by decide)⟩
  case pickArray hg hk hl hmin hmax hb hle hc he hp hre hr =>
    exact ⟨hgen hg, hnone hk (by decide), hnone hk (by decide), hnone hk (by decide)⟩

theorem strict_of_conforms (h : Conforms (editorView t m)) : Strict m :=
  ⟨noNull_of_conforms h, quoted_of_conforms h⟩

theorem editor_iff_lax : Conforms (editorView t m) ↔ Conforms (laxView lib t m) ∧ Strict m := by
  constructor
  case mp  => exact fun h => ⟨(strict_of_conforms h).view_eq (t := t) ▸ h, strict_of_conforms h⟩
  case mpr => exact fun ⟨h, hs⟩ => hs.view_eq (t := t) ▸ h

theorem parsePositions_text {n length : ℕ} (h : 10 ^ 4 ≤ n) :
    (Engine.parsePositions (t.text n) length).toOption = none := by
  rw [NumberText.text]
  split
  case isTrue  => exact parsePositions_toString h
  case isFalse => exact parsePositions_of_not_plain (t.exponent n) (by simp [IsPlain]; decide)

theorem positions_int (n : Engine.YamlInt) : Schema.positions t (.int n) =
    if 0 ≤ n.val then some (t.text (Rounding.roundInt 53 n.val).toNat) else none := by
  have h0 : (0 : ℚ) ≤ Rounding.roundInt 53 n.val ↔ 0 ≤ n.val := by
    have hk : (0 : ℤ).natAbs < 2 ^ 53 := by decide
    rw [← Rounding.le_roundInt_iff (by decide) hk]
    exact_mod_cast Iff.rfl
  by_cases hn : 0 ≤ n.val
  case pos => simp [Schema.positions, int_eq, whole_int, Option.filter_some, h0, hn]
  case neg => simp [Schema.positions, int_eq, whole_int, Option.filter_some, h0, hn]

-- A text of positions is the same on both sides or it is refused on both.
theorem positions_eq {y : Yaml} {length : ℕ} (hf : ∀ q, y ≠ .float q) (hw : ∀ n, y ≠ .wide n) :
    ((Schema.positions t y).bind fun text => (Engine.parsePositions text length).toOption) =
      (Engine.presentPositions y).toOption.bind fun text =>
        (Engine.parsePositions text length).toOption := by
  cases y
  case float q => exact absurd rfl (hf q)
  case wide n  => exact absurd rfl (hw n)
  case int n =>
    rw [positions_int, Engine.presentPositions]
    split
    case isFalse => simp [Except.toOption]
    case isTrue hn =>
      have ho {s : String} : (Except.ok s : Except Engine.GenError String).toOption = some s := rfl
      rw [ho, Option.bind_some, Option.bind_some]
      by_cases hb : n.val < 2 ^ 53
      case pos =>
        rw [Rounding.roundInt_of_lt (by omega), NumberText.text, if_pos (by omega)]
      case neg =>
        have hk : 2 ^ 53 ≤ (Rounding.roundInt 53 n.val).natAbs :=
          Rounding.le_natAbs_roundInt (by decide) (by omega)
        have hr : 0 ≤ Rounding.roundInt 53 n.val := Rounding.roundInt_nonneg 53 hn
        rw [parsePositions_text (by omega), parsePositions_toString (by omega)]
  all_goals
    simp [Schema.positions, Schema.int, Schema.number, Engine.presentPositions, Except.toOption]

theorem candidates_lax (h : Narrow m) (length : ℕ) :
    (laxView lib t m).candidates length = (m.engineView lib).candidates length := by
  simp only [View.candidates, laxView]
  cases hy : (m.engineView lib).get "positions"
  case none => rfl
  case some y =>
    refine positions_eq ?_ ?_
    case refine_1 =>
      rintro q rfl
      exact h.noFloat "positions" (by simp) q ((engineView_get_eq (by decide) rfl).mp hy)
    case refine_2 =>
      rintro n rfl
      exact h.noWide "positions" (by simp) n ((engineView_get_eq (by decide) rfl).mp hy)

theorem narrow_of_conforms (h : Conforms (m.engineView lib)) : Narrow m where
  noFloat key hk q hq := by
    have ht : ∀ key ∈ ["min", "max", "step", "length", "positions"], key ∉ textual := by decide
    have hr := (Engine.readable_of_conforms h).fields key _
      ((engineView_get_eq (ht key hk) rfl).mpr hq)
    have hf : ∀ key ∈ ["min", "max", "step", "length", "positions"],
        Mapping.reads key (.float q) = false := by
      simp only [List.forall_mem_cons]
      exact ⟨rfl, rfl, rfl, rfl, rfl, by simp⟩
    simp [hf key hk] at hr
  noWide key hk n hn := by
    have ht : ∀ key ∈ ["min", "max", "step", "length", "positions", "pick", "rest"],
        key ∉ textual := by decide
    have hr := (Engine.readable_of_conforms h).fields key _
      ((engineView_get_eq (ht key hk) rfl).mpr hn)
    have hf : ∀ key ∈ ["min", "max", "step", "length", "positions", "pick", "rest"],
        Mapping.reads key (.wide n) = false := by
      simp only [List.forall_mem_cons]
      exact ⟨rfl, rfl, rfl, rfl, rfl, rfl, rfl, by simp⟩
    simp [hf key hk] at hr
  bound key hk n hn := by
    have ht : ∀ key ∈ ["min", "max"], key ∉ textual := by decide
    have hr := (Engine.readable_of_conforms h).fields key _
      ((engineView_get_eq (ht key hk) rfl).mpr hn)
    have hb : ∀ key ∈ ["min", "max"],
        Mapping.reads key (.int n) = (Engine.readI64 (.int n)).isSome := by
      simp only [List.forall_mem_cons]
      exact ⟨rfl, rfl, by simp⟩
    rw [hb key hk] at hr
    by_contra hc
    exact hc (by simpa [Engine.readI64] using hr)
  step n hn := by
    have hr : (Engine.readU32 (.int n)).isSome :=
      (Engine.readable_of_conforms h).fields "step" _ ((engineView_get_eq (by decide) rfl).mpr hn)
    by_contra hc
    have hb : 0 ≤ n.val ∧ n.val < 2 ^ 32 := by simpa [Engine.readU32] using hr
    exact hc hb.2
  order n n' hn hn' := by
    have hn := (@engineView_get_eq lib m _ _ (by decide) rfl).mpr hn
    have hn' := (@engineView_get_eq lib m _ _ (by decide) rfl).mpr hn'
    have hread {n : Engine.YamlInt} {k : ℤ} (h : Engine.readI64 (.int n) = some k) : n.val = k := by
      obtain ⟨_, h⟩ : n.val < 2 ^ 63 ∧ n.val = k := by simpa [Engine.readI64] using h
      exact h
    cases h
    case date hg hk hf ho ht hr => simp [hk "min" (by decide)] at hn
    case uuid hg hk hr => simp [hk "min" (by decide)] at hn
    case randomString hg hk hl hr => simp [hk "min" (by decide)] at hn
    case randomInt min max hg hk hmin hmax hle hst hr =>
      rw [hn, Option.bind_some] at hmin
      rw [hn', Option.bind_some] at hmax
      exact hread hmin ▸ hread hmax ▸ hle
    case pickArray length min max set hg hk hl hmin hmax hb hle hc he hp hre hr =>
      rw [hn, Option.bind_some] at hmin
      rw [hn', Option.bind_some] at hmax
      exact hread hmin ▸ hread hmax ▸ hle.2.1

theorem whole_of_readI64 {y : Yaml} {k : ℤ} (h : Engine.readI64 y = some k) :
    whole y = some (Rounding.roundInt 53 k) := by
  cases y
  case int n =>
    obtain ⟨-, rfl⟩ : n.val < 2 ^ 63 ∧ n.val = k := by simpa [Engine.readI64] using h
    exact whole_int n
  all_goals simp [Engine.readI64] at h

theorem whole_of_readI64_small {y : Yaml} {k : ℤ} (h : Engine.readI64 y = some k)
    (hk : k.natAbs < 2 ^ 53) : whole y = some k := by
  rw [whole_of_readI64 h, Rounding.roundInt_of_lt hk]

theorem whole_of_readU32 {y : Yaml} {k : ℕ} (h : Engine.readU32 y = some k) :
    whole y = some (k : ℤ) := by
  have hk : k < 2 ^ 32 := by
    cases y
    case int n =>
      obtain ⟨⟨h0, hlt⟩, rfl⟩ : (0 ≤ n.val ∧ n.val < 2 ^ 32) ∧ n.val.toNat = k := by
        simpa [Engine.readU32] using h
      omega
    all_goals simp [Engine.readU32] at h
  exact whole_of_readI64_small (Engine.readI64_of_readU32 h) (by omega)

theorem bind_whole {o : Option Yaml} {k : ℤ} (h : o.bind Engine.readI64 = some k) :
    o.bind whole = some (Rounding.roundInt 53 k) := by
  obtain ⟨y, rfl, hy⟩ := Option.bind_eq_some_iff.mp h
  exact whole_of_readI64 hy

theorem bind_whole_small {o : Option Yaml} {k : ℤ} (h : o.bind Engine.readI64 = some k)
    (hk : k.natAbs < 2 ^ 53) : o.bind whole = some k := by
  rw [bind_whole h, Rounding.roundInt_of_lt hk]

-- The editor's rounding keeps what conforms.
theorem lax_of_engine (h : Conforms (m.engineView lib)) : Conforms (laxView lib t m) := by
  have hn := narrow_of_conforms h
  have hs {key : String} (hw : ∀ n, m.get key ≠ some (.wide n)) (ht : key ∉ textual)
      (hp : ∀ y ∈ (m.engineView lib).get key, (Engine.presentValue y).isOk) :
      ∀ y ∈ (m.engineView lib).get key, (Schema.jsonScalar y).isSome := by
    intro y hy
    have hy' : ∀ n, y ≠ .wide n := by
      rintro n rfl
      exact hw n ((engineView_get_eq ht rfl).mp hy)
    rw [jsonScalar_isSome hy']
    exact hp y hy
  cases h
  case date hg hk hf ho ht hr => exact .date hg hk hf ho ht hr
  case uuid hg hk hr          => exact .uuid hg hk hr
  case randomInt min max hg hk hmin hmax hle hst hr =>
    refine .randomInt _ _ hg hk (bind_whole hmin) (bind_whole hmax)
      (Rounding.roundInt_mono (by decide) hle) (fun y hy => ?_) hr
    have ⟨n, hn, h1⟩ := hst y hy
    have ⟨k, hk, he⟩ := Option.map_eq_some_iff.mp hn
    exact ⟨k, whole_of_readU32 hk, h1.trans_eq he.symm⟩
  case randomString hg hk hl hr =>
    refine .randomString hg hk (fun y hy => ?_) hr
    have ⟨n, hn, h1, h64⟩ := hl y hy
    exact ⟨n, whole_of_readI64_small hn (by omega), h1, h64⟩
  case pickArray length min max set hg hk hl hmin hmax hb hle hc he hp hre hr =>
    have hlt : length ≤ 1000 := hb.2
    rw [← candidates_lax (t := t) hn] at hc
    exact .pickArray length min max set hg hk (bind_whole_small hl (by omega))
      (bind_whole_small hmin (by omega)) (bind_whole_small hmax (by omega)) hb hle hc he
      (hs (hn.noWide "pick" (by simp)) (by decide) hp)
      (hs (hn.noWide "rest" (by simp)) (by decide) hre) hr

namespace Narrow

variable (h : Narrow m)

include h

theorem int {y : Yaml} {k : ℤ} (hk : key ∈ ["min", "max", "step", "length"])
    (hy : (m.engineView lib).get key = some y) (hw : whole y = some k) :
    m.get key = some y ∧ ∃ n, y = .int n ∧ Rounding.roundInt 53 n.val = k := by
  have hsub : ∀ key ∈ ["min", "max", "step", "length"], key ∉ textual ∧
      key ∈ ["min", "max", "step", "length", "positions"] ∧
      key ∈ ["min", "max", "step", "length", "positions", "pick", "rest"] := by decide
  obtain ⟨ht, hf, hi⟩ := hsub key hk
  have hn : y.isNull = false := by
    cases y
    case null => simp [whole_null] at hw
    all_goals rfl
  have hg := (engineView_get_eq ht hn).mp hy
  refine ⟨hg, whole_eq_some hw ?_ ?_⟩
  case refine_1 =>
    rintro q rfl
    exact h.noFloat key hf q hg
  case refine_2 =>
    rintro n rfl
    exact h.noWide key hi n hg

theorem bind_readI64 {k : ℤ} (hk : key ∈ ["min", "max"])
    (hw : ((m.engineView lib).get key).bind whole = some k) :
    ∃ n, m.get key = some (.int n) ∧ Rounding.roundInt 53 n.val = k ∧
      ((m.engineView lib).get key).bind Engine.readI64 = some n.val := by
  obtain ⟨y, hy, hw⟩ := Option.bind_eq_some_iff.mp hw
  have hm : ∀ key ∈ ["min", "max"], key ∈ ["min", "max", "step", "length"] := by decide
  obtain ⟨hg, n, rfl, hr⟩ := h.int (hm key hk) hy hw
  refine ⟨n, hg, hr, ?_⟩
  rw [hy, Option.bind_some, Engine.readI64, if_pos (h.bound key hk n hg)]

theorem bind_readI64_small {k : ℤ} (hk : key ∈ ["min", "max"])
    (hw : ((m.engineView lib).get key).bind whole = some k) (hb : k.natAbs < 2 ^ 53) :
    ((m.engineView lib).get key).bind Engine.readI64 = some k := by
  have ⟨n, _, hr, hn⟩ := h.bind_readI64 hk hw
  rw [hn, Rounding.eq_of_roundInt_eq (by decide) hb hr]

theorem readI64_length {y : Yaml} {k : ℤ} (hy : (m.engineView lib).get "length" = some y)
    (hw : whole y = some k) (hb : k.natAbs < 2 ^ 53) : Engine.readI64 y = some k := by
  obtain ⟨-, n, rfl, hr⟩ := h.int (by simp) hy hw
  obtain rfl := Rounding.eq_of_roundInt_eq (by decide) hb hr
  rw [Engine.readI64, if_pos (by omega)]

theorem readU32_step {y : Yaml} {k : ℤ} (hy : (m.engineView lib).get "step" = some y)
    (hw : whole y = some k) (h1 : 1 ≤ k) : (Engine.readU32 y).map Int.ofNat = some k := by
  obtain ⟨hg, n, rfl, hr⟩ := h.int (by simp) hy hw
  have hlt := h.step n hg
  have hn : 1 ≤ n.val := by
    have hk : (1 : ℤ).natAbs < 2 ^ 53 := by decide
    rwa [← hr, Rounding.le_roundInt_iff (by decide) hk] at h1
  rw [Rounding.roundInt_of_lt (by omega)] at hr
  rw [Engine.readU32, if_pos ⟨by omega, hlt⟩, Option.map_some, ← hr]
  exact congrArg some (Int.toNat_of_nonneg (by omega))

-- What conforms as the editor reads it does so as the engine does.
theorem presentValue_isOk (hk : key ∈ ["pick", "rest"])
    (hs : ∀ y ∈ (m.engineView lib).get key, (Schema.jsonScalar y).isSome) :
    ∀ y ∈ (m.engineView lib).get key, (Engine.presentValue y).isOk := by
  have hsub : ∀ key ∈ ["pick", "rest"], key ∉ textual ∧
      key ∈ ["min", "max", "step", "length", "positions", "pick", "rest"] := by decide
  obtain ⟨ht, hi⟩ := hsub key hk
  intro y hy
  have hw : ∀ n, y ≠ .wide n := by
    rintro n rfl
    exact h.noWide key hi n ((engineView_get_eq ht rfl).mp hy)
  rw [← jsonScalar_isSome hw]
  exact hs y hy

theorem engine_of_lax (hl : Conforms (laxView lib t m)) : Conforms (m.engineView lib) := by
  cases hl
  case date hg hk hf ho ht hr => exact .date hg hk hf ho ht hr
  case uuid hg hk hr          => exact .uuid hg hk hr
  case randomInt min max hg hk hmin hmax hle hst hr =>
    have ⟨n, hn, _, hmin⟩ := h.bind_readI64 (by simp) hmin
    have ⟨n', hn', _, hmax⟩ := h.bind_readI64 (by simp) hmax
    refine .randomInt _ _ hg hk hmin hmax (h.order n n' hn hn') (fun y hy => ?_) hr
    have ⟨k, hk, h1⟩ := hst y hy
    exact ⟨k, h.readU32_step hy hk h1, h1⟩
  case randomString hg hk hl hr =>
    refine .randomString hg hk (fun y hy => ?_) hr
    have ⟨n, hn, h1, h64⟩ := hl y hy
    exact ⟨n, h.readI64_length hy hn (by omega), h1, h64⟩
  case pickArray length min max set hg hk hl hmin hmax hb hle hc he hp hre hr =>
    have hlt : length ≤ 1000 := hb.2
    rw [candidates_lax h] at hc
    obtain ⟨y, hy, hw⟩ := Option.bind_eq_some_iff.mp hl
    have hl : ((m.engineView lib).get "length").bind Engine.readI64 = some (length : ℤ) :=
      Option.bind_eq_some_iff.mpr ⟨y, hy, h.readI64_length hy hw (by omega)⟩
    exact .pickArray length min max set hg hk hl (h.bind_readI64_small (by simp) hmin (by omega))
      (h.bind_readI64_small (by simp) hmax (by omega)) hb hle hc he
      (h.presentValue_isOk (by simp) hp) (h.presentValue_isOk (by simp) hre) hr

end Narrow

theorem engine_iff_lax :
    Conforms (m.engineView lib) ↔ Conforms (laxView lib t m) ∧ Narrow m := by
  constructor
  case mp  => exact fun h => ⟨lax_of_engine h, narrow_of_conforms h⟩
  case mpr => exact fun ⟨h, hn⟩ => hn.engine_of_lax h

-- The positions of an array that the editor accepts.
theorem pickArray_of_genSpecModel {length min max : ℚ} {positions : Option String}
    {pick rest : Option PickScalar}
    (h : genSpecModel t m = some (.pickArray length min max positions pick rest)) :
    ∃ n : ℕ, (m.get "length").bind whole = some (n : ℤ) ∧
      (editorView t m).candidates n = candidatesOf length positions := by
  have hs : discriminated t m = some (.pickArray length min max positions pick rest) :=
    (Option.filter_eq_some_iff.mp h).1
  have hl (n : ℤ) : (1 ≤ (n : ℚ) && (n : ℚ) ≤ pickArrayMaxLen : Bool) ↔
      1 ≤ n ∧ n ≤ pickArrayMaxLen := by
    rw [Bool.and_eq_true, decide_eq_true_iff, decide_eq_true_iff]
    exact_mod_cast Iff.rfl
  unfold discriminated at hs
  split at hs
  case h_5 =>
    simp only [pickArrayGenModel, Option.bind_eq_bind, Option.bind_eq_some_iff, optional_eq_some,
      required_filter, hl] at hs
    obtain ⟨_, ⟨n, hn, hb, rfl⟩, _, _, _, _, _, ⟨hpos, hp⟩, _, _, _, _, _, _, _, _, he⟩ := hs
    obtain ⟨k, rfl⟩ : ∃ k : ℕ, n = k := ⟨n.toNat, by omega⟩
    obtain ⟨rfl, _, _, rfl, _⟩ := GenSpec.pickArray.inj (Option.some.inj he)
    refine ⟨k, Option.bind_eq_some_iff.mpr hn, ?_⟩
    exact_mod_cast candidates_eq (by omega) hpos hp
  case h_1 => simp [dateGenModel, Option.bind_eq_some_iff] at hs
  case h_2 => simp [randomIntGenModel, Option.bind_eq_some_iff] at hs
  case h_3 => simp [uuidGenModel, Option.bind_eq_some_iff] at hs
  case h_4 => simp [randomStringGenModel, Option.bind_eq_some_iff] at hs
  case h_6 => simp at hs

end

def scientific : NumberText where
  exponential n := "1e+" ++ toString ((toString n).length - 1)
  exponent n    := by simp

-- Both sides accept the declaration or both refuse it, and they pick from the same positions.
def Agree (lib : Engine.DeclLib) (t : NumberText) (m : Mapping) : Prop :=
  ((∃ d, Engine.VarDecl.visitMap lib m = .ok d) ↔ (genSpecModel t m).isSome) ∧
  ∀ gen refresh length min max positions pick rest,
    Engine.VarDecl.visitMap lib m = .ok (.gen (.pickArray gen) refresh) →
    genSpecModel t m = some (.pickArray length min max positions pick rest) →
      candidatesOf length positions = some gen.candidates

section

variable {lib : Engine.DeclLib} {m : Mapping}

theorem passes_of_strict (hd : lib.Valid m) (hs : Strict m) : lib.Passes m := by
  have hv : laxView lib scientific m = editorView scientific m := hs.view_eq
  have hg (key : String) : (m.engineView lib).get key = m.get key :=
    congrFun (congrArg View.get hv) key
  exact ⟨fun s h => hd.format s (hg _ ▸ h), fun s h => hd.tz s (hg _ ▸ h)⟩

theorem candidates_agree (t : NumberText) (hd : lib.Valid m) {gen : Engine.PickArrayGen}
    {refresh : Engine.Refresh} {length min max : ℚ} {positions : Option String}
    {pick rest : Option PickScalar}
    (he : Engine.VarDecl.visitMap lib m = .ok (.gen (.pickArray gen) refresh))
    (hu : genSpecModel t m = some (.pickArray length min max positions pick rest)) :
    candidatesOf length positions = some gen.candidates := by
  have hn : Narrow m := narrow_of_conforms ((Engine.visitMap_iff hd.default).mp ⟨_, he⟩).left
  have hv : laxView lib t m = editorView t m :=
    (strict_of_conforms (genSpecModel_iff.1 (by rw [hu]; rfl))).view_eq
  have ⟨n, hw, hc⟩ := pickArray_of_genSpecModel hu
  have ⟨hl, hg⟩ := Engine.pickArray_of_visitMap he
  obtain ⟨y, hy, hr⟩ := Option.bind_eq_some_iff.mp hl
  have hm : (m.engineView lib).get "length" = m.get "length" :=
    congrFun (congrArg View.get hv) "length"
  rw [← hm, hy, Option.bind_some, whole_of_readU32 hr, Option.some.injEq, Int.natCast_inj] at hw
  rw [← hc, ← hv, candidates_lax hn, ← hw, hg]

-- A null that only the engine leaves out, a plain value that only the engine takes for a text and a
-- number that only the editor reads make the two sides differ, unless the declaration has the ones
-- and the other or breaks another rule.
theorem agree_iff (t : NumberText) (hd : lib.Valid m) :
    Agree lib t m ↔ ¬(Conforms (laxView lib t m) ∧ lib.Passes m) ∨ (Strict m ↔ Narrow m) := by
  have hc := fun gen refresh length min max positions pick rest =>
    @candidates_agree lib m t hd gen refresh length min max positions pick rest
  have hp : Strict m → lib.Passes m := passes_of_strict hd
  rw [Agree, and_iff_left hc, Engine.visitMap_iff hd.default, genSpecModel_iff,
    engine_iff_lax (t := t), @editor_iff_lax lib t m]
  tauto

end

-- A null format of a generator without parameters.
def uuidFormatNull : Mapping where
  entries := [("gen", .string "uuid"), ("format", .null)]
  nodup   := by decide

-- A format that is written as a number.
def dateFormatFive : Mapping where
  entries := [("gen", .string "date"), ("format", .int ⟨5, by decide, by decide⟩)]
  nodup   := by decide

-- A value that needs more than 64 bits.
def pickWide : Mapping where
  entries := [("gen", .string "pick_array"), ("length", .int ⟨4, by decide, by decide⟩),
    ("min", .int ⟨1, by decide, by decide⟩), ("max", .int ⟨2, by decide, by decide⟩),
    ("pick", .wide ⟨2 ^ 64, by decide, by decide, by decide⟩)]
  nodup   := by decide

def anyDate : DeclLib where
  plain _ _       := "5"
  strftimeItems f := [.literal f]
  tzValid _       := true

theorem agree_iff_uuidFormatNull : anyDate.Valid uuidFormatNull ∧
    (Agree anyDate scientific uuidFormatNull ↔
      ¬(Conforms (laxView anyDate scientific uuidFormatNull) ∧ anyDate.Passes uuidFormatNull) ∨
        (Strict uuidFormatNull ↔ Narrow uuidFormatNull)) :=
  have hd : anyDate.Valid uuidFormatNull := ⟨rfl, fun _ _ => .inr (.inr rfl), fun _ _ => rfl⟩
  ⟨hd, agree_iff scientific hd⟩

-- The engine accepts a null format and one that is written as a number, which the editor refuses.
-- The editor accepts a value that is wide, which the engine refuses.
theorem agree_counterexample :
    (anyDate.Valid uuidFormatNull ∧ ¬Agree anyDate scientific uuidFormatNull) ∧
    (anyDate.Valid dateFormatFive ∧ ¬Agree anyDate scientific dateFormatFive) ∧
    (anyDate.Valid pickWide ∧ ¬Agree anyDate scientific pickWide) := by
  refine ⟨⟨⟨rfl, fun _ _ => .inr (.inr rfl), fun _ _ => rfl⟩, fun h => ?_⟩,
    ⟨⟨rfl, fun _ _ => .inr (.inr rfl), fun _ _ => rfl⟩, fun h => ?_⟩,
    ⟨⟨rfl, fun _ _ => .inr (.inr rfl), fun _ _ => rfl⟩, fun h => ?_⟩⟩
  case refine_1 =>
    have he : Engine.VarDecl.visitMap anyDate uuidFormatNull = .ok (.gen .uuid .iteration) := rfl
    have hu : (genSpecModel scientific uuidFormatNull).isSome := h.1.mp ⟨_, he⟩
    have hn : (genSpecModel scientific uuidFormatNull).isSome = false := by decide
    exact Bool.false_ne_true (hn.symm.trans hu)
  case refine_2 =>
    have he : Engine.VarDecl.visitMap anyDate dateFormatFive =
        .ok (.gen (.date ⟨"5", none, none, 0⟩) .iteration) := rfl
    have hu : (genSpecModel scientific dateFormatFive).isSome := h.1.mp ⟨_, he⟩
    have hn : (genSpecModel scientific dateFormatFive).isSome = false := by decide
    exact Bool.false_ne_true (hn.symm.trans hu)
  case refine_3 =>
    have hu : (genSpecModel scientific pickWide).isSome := by decide
    obtain ⟨d, hd⟩ := h.1.mpr hu
    have he : Engine.VarDecl.visitMap anyDate pickWide =
        .error (.custom "invalid type: integer") := rfl
    rw [he] at hd
    cases hd

end Ui
