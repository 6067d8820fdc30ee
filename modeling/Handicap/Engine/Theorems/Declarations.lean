import Handicap.Engine.Theorems.Generate
import Handicap.Engine.Theorems.Serde

-- The declarations of variables are read from what they are written as.
namespace Engine

open Guard (bind_eq_ok refuse_eq_ok seq_eq_ok)

-- A text of an array is not too long.
@[simp]
def Scalar.Short : Scalar → Prop
  | .string s => s.length ≤ pickValueMaxChars
  | _         => True

namespace GenSpecWire

-- The fields of a declaration, in the order in which all generators write theirs.
def fields (w : GenSpecWire) : List (String × Option Yaml) :=
  [("gen", some (.string w.gen)), ("format", w.format.map .string),
    ("offset", w.offset.map .string), ("tz", w.tz.map .string), ("length", w.length.map .ofNat),
    ("min", w.min.map fun n => .int (.ofInt n)), ("max", w.max.map fun n => .int (.ofInt n)),
    ("step", w.step.map .ofNat), ("positions", w.positions.map .string),
    ("pick", w.pick.map Scalar.serialize), ("rest", w.rest.map Scalar.serialize),
    ("refresh", w.refresh.map Refresh.serialize)]

structure Canonical (w : GenSpecWire) : Prop extends w.Ranged where
  length : ∀ n ∈ w.length, n < 2 ^ 32
  pick   : ∀ s ∈ w.pick, s.Short
  rest   : ∀ s ∈ w.rest, s.Short

end GenSpecWire

section

variable {w : GenSpecWire} {m : Mapping}

theorem reads_scalar {s : Scalar} (h : s.Short) : Reads presentValue s.serialize s := by
  cases s
  case null     => exact ⟨.null, rfl⟩
  case bool b   => exact ⟨.bool b, rfl⟩
  case int n    => exact ⟨.int n, rfl⟩
  case float q  => exact ⟨.float q, rfl⟩
  case string s => exact ⟨.string s, if_neg (not_lt.mpr h)⟩

theorem short_of_presentValue {y : Yaml} {s : Scalar} (h : presentValue y = .ok s) : s.Short := by
  unfold presentValue at h
  split at h
  case h_4 => simp at h
  case h_6 s _ =>
    split at h
    case isTrue     => simp at h
    case isFalse hn => exact Except.ok.inj h ▸ not_lt.mp hn
  case h_7 => simp at h
  all_goals exact Except.ok.inj h ▸ trivial

theorem reads_refresh (r : Refresh) : Reads presentRefresh r.serialize r := by
  cases r
  case iteration => exact ⟨.string _, rfl⟩
  case request   => exact ⟨.string _, rfl⟩

theorem readI64_ofInt {n : ℤ} (hlo : -2 ^ 63 ≤ n) (hhi : n < 2 ^ 63) :
    readI64 (.int (.ofInt n)) = some n := by
  rw [readI64, ofInt_val hlo (by omega), if_pos hhi]

theorem wire_trees (h : w.Canonical) : Trees w.fields := by
  simp only [GenSpecWire.fields, trees_some, trees_map, trees_nil, and_true]
  exact ⟨.string _, fun s _ => .string s, fun s _ => .string s, fun s _ => .string s,
    fun n _ => isTree_ofNat n, fun n _ => .int _, fun n _ => .int _, fun n _ => isTree_ofNat n,
    fun s _ => .string s, fun s hs => (reads_scalar (h.pick s hs)).tree,
    fun s hs => (reads_scalar (h.rest s hs)).tree, fun r _ => (reads_refresh r).tree⟩

theorem wire_deserialize (lib : DeclLib) (h : w.Canonical) (hl : m.Has w.fields) :
    GenSpecWire.deserialize lib m = .ok w := by
  have hk : (m.keys.forM fun key => Guard.refuse (key ∉ wireFields) (GenError.unknownField key)) =
      .ok () := hl.denyUnknown (by simp [GenSpecWire.fields, wireFields])
  have hget := hl.get
  simp only [GenSpecWire.fields, List.forall_mem_cons] at hget
  obtain ⟨hgen, hformat, hoffset, htz, hlength, hmin, hmax, hstep, hpositions, hpick, hrest,
    hrefresh, -⟩ := hget
  have hg : required m "gen" (readText lib "gen") = .ok w.gen := required_of_get hgen rfl
  have hp : present m "positions" presentPositions = .ok w.positions :=
    present_of_get hpositions fun _ _ => rfl
  rw [GenSpecWire.deserialize, hk, ok_bind, hg, ok_bind,
    optional_text hformat, ok_bind, optional_text hoffset, ok_bind, optional_text htz,
    ok_bind, optional_of_get hmin (fun _ => rfl)
      fun n hn => readI64_ofInt (h.min n hn).left (h.min n hn).right, ok_bind,
    optional_of_get hmax (fun _ => rfl)
      fun n hn => readI64_ofInt (h.max n hn).left (h.max n hn).right, ok_bind,
    optional_of_get hstep (fun _ => rfl) fun n hn => readU32_ofNat (h.step n hn), ok_bind,
    optional_of_get hlength (fun _ => rfl) fun n hn => readU32_ofNat (h.length n hn), ok_bind,
    hp, ok_bind, present_of_get hpick fun s hs => (reads_scalar (h.pick s hs)).read, ok_bind,
    present_of_get hrest fun s hs => (reads_scalar (h.rest s hs)).read, ok_bind,
    present_of_get hrefresh fun r _ => (reads_refresh r).read, ok_bind]
  rfl

end

namespace GenSpec

-- The fields of a generator before they are checked.
def toWire (refresh : Option Refresh) (spec : GenSpec) : GenSpecWire :=
  let empty : GenSpecWire :=
    { gen := "uuid", format := none, offset := none, tz := none, min := none, max := none
      step := none, length := none, positions := none, pick := none, rest := none, refresh }
  match spec with
  | .date g              =>
    { empty with gen := "date", format := some g.format, offset := g.offset, tz := g.tz }
  | .randomInt g         =>
    { empty with gen := "random_int", min := some g.min, max := some g.max
                 step := skipIf (· = 1) g.step }
  | .uuid                => empty
  | .randomString length => { empty with gen := "random_string", length := some length }
  | .pickArray g         =>
    { empty with gen := "pick_array", length := some g.length, min := some (g.min : ℤ)
                 max := some (g.max : ℤ), positions := g.positions, pick := g.pick, rest := g.rest }

-- What is kept of a generator besides the fields that it is written with.
@[simp]
def Derived : GenSpec → Prop
  | .date g      =>
    match g.offset with
    | none   => g.offsetSecs = 0
    | some o => parseOffsetSecs o = some g.offsetSecs
  | .pickArray g =>
    ((GenSpec.pickArray g).toWire none).candidates g.length = .ok g.candidates ∧
      (∀ s ∈ g.pick, s.Short) ∧ ∀ s ∈ g.rest, s.Short
  | _            => True

variable {lib : DeclLib} {spec : GenSpec} {refresh : Option Refresh}

theorem toWire_canonical (hv : spec.Valid lib) (hd : spec.Derived) :
    (spec.toWire refresh).Canonical where
  min n hn := by
    cases spec
    case randomInt g =>
      obtain rfl : g.min = n := Option.some.inj hn
      obtain ⟨hlo, hle, hhi, _⟩ := hv
      omega
    case pickArray g =>
      obtain rfl : (g.min : ℤ) = n := Option.some.inj hn
      obtain ⟨_, hl, hle, hmax, _⟩ := hv
      unfold pickArrayMaxLen at hl
      omega
    all_goals simp [toWire] at hn
  max n hn := by
    cases spec
    case randomInt g =>
      obtain rfl : g.max = n := Option.some.inj hn
      obtain ⟨hlo, hle, hhi, _⟩ := hv
      omega
    case pickArray g =>
      obtain rfl : (g.max : ℤ) = n := Option.some.inj hn
      obtain ⟨_, hl, _, hmax, _⟩ := hv
      unfold pickArrayMaxLen at hl
      omega
    all_goals simp [toWire] at hn
  step n hn := by
    cases spec
    case randomInt g =>
      have hn : n ∈ skipIf (· = 1) g.step := hn
      obtain rfl : n = g.step := skipIf_eq_some hn
      exact hv.right.right.right.right
    all_goals simp [toWire] at hn
  length n hn := by
    cases spec
    case randomString length =>
      obtain rfl : length = n := Option.some.inj hn
      have hle := hv.right
      omega
    case pickArray g =>
      obtain rfl : g.length = n := Option.some.inj hn
      have hl := hv.right.left
      unfold pickArrayMaxLen at hl
      omega
    all_goals simp [toWire] at hn
  pick s hs := by
    cases spec
    case pickArray g => exact hd.right.left s hs
    all_goals simp [toWire] at hs
  rest s hs := by
    cases spec
    case pickArray g => exact hd.right.right s hs
    all_goals simp [toWire] at hs

theorem tryInto_toWire (hv : spec.Valid lib) (hd : spec.Derived) :
    (spec.toWire refresh).tryInto lib = .ok spec := by
  cases spec
  case date g =>
    obtain ⟨format, offset, tz, secs⟩ := g
    obtain ⟨hf, ht, _⟩ := hv
    have hz : ¬∃ t ∈ tz, ¬lib.tzValid t := by
      rintro ⟨t, hm, hn⟩
      exact hn (ht t hm)
    refine seq_eq_ok.mpr ⟨refuse_eq_ok.mpr (by simp [toWire]), ?_⟩
    refine seq_eq_ok.mpr ⟨refuse_eq_ok.mpr ?_, ?_⟩
    case refine_1 =>
      change ¬(format ≠ "unix" ∧ format ≠ "unix_ms" ∧ ¬lib.strftimeValid format)
      tauto
    case refine_2 =>
      obtain _ | o := offset
      case none =>
        obtain rfl : secs = 0 := hd
        exact seq_eq_ok.mpr ⟨refuse_eq_ok.mpr hz, rfl⟩
      case some =>
        have ho : parseOffsetSecs o = some secs := hd
        simp only [toWire, ho]
        exact seq_eq_ok.mpr ⟨refuse_eq_ok.mpr hz, rfl⟩
  case randomInt g =>
    obtain ⟨_, hle, _, hs, _⟩ := hv
    have hst : (skipIf (· = 1) g.step).getD 1 = g.step := skipIf_getD (by simp)
    refine seq_eq_ok.mpr ⟨refuse_eq_ok.mpr (by simp [toWire]), ?_⟩
    refine seq_eq_ok.mpr ⟨refuse_eq_ok.mpr (not_lt.mpr hle), ?_⟩
    refine seq_eq_ok.mpr ⟨refuse_eq_ok.mpr ?_, ?_⟩
    case refine_1 => exact fun h => by simp [toWire, hst] at h; omega
    case refine_2 => simp only [toWire, hst, pure, Except.pure]
  case uuid => rfl
  case randomString n =>
    exact seq_eq_ok.mpr ⟨refuse_eq_ok.mpr (by simp [toWire]),
      seq_eq_ok.mpr ⟨refuse_eq_ok.mpr (not_not.mpr hv), rfl⟩⟩
  case pickArray g =>
    obtain ⟨h1, hl, hle, hmax, hlen, hne, _⟩ := hv
    obtain ⟨hc, _⟩ := hd
    refine seq_eq_ok.mpr ⟨refuse_eq_ok.mpr (by simp [toWire]), ?_⟩
    refine seq_eq_ok.mpr ⟨refuse_eq_ok.mpr (not_not.mpr ⟨h1, hl⟩), ?_⟩
    refine seq_eq_ok.mpr ⟨refuse_eq_ok.mpr (by omega), ?_⟩
    refine seq_eq_ok.mpr ⟨refuse_eq_ok.mpr (by omega), ?_⟩
    refine seq_eq_ok.mpr ⟨refuse_eq_ok.mpr (by omega), ?_⟩
    refine bind_eq_ok.mpr ⟨g.candidates, hc, ?_⟩
    refine seq_eq_ok.mpr ⟨refuse_eq_ok.mpr hne, ?_⟩
    exact seq_eq_ok.mpr ⟨refuse_eq_ok.mpr (by omega), rfl⟩

theorem serialize_gen (spec : GenSpec) (refresh : Refresh) :
    (VarDecl.gen spec refresh).serialize =
      .mapping (collect (spec.toWire (skipIf (· = .iteration) refresh)).fields) := by
  cases spec <;> simp [VarDecl.serialize, serializeEntries, GenSpecWire.fields, toWire, Yaml.ofNat]

end GenSpec

section

variable {lib : DeclLib} {w : GenSpecWire} {spec : GenSpec}

theorem toDate_derived (h : w.toDate lib = .ok spec) : spec.Derived := by
  simp only [GenSpecWire.toDate] at h
  obtain ⟨_, _, h⟩ := bind_eq_ok.mp h
  obtain ⟨_, _, h⟩ := bind_eq_ok.mp h
  split at h
  case h_1 o ho =>
    split at h
    case h_1 secs hs =>
      obtain ⟨_, hp, h⟩ := bind_eq_ok.mp h
      obtain ⟨_, _, h⟩ := bind_eq_ok.mp h
      obtain rfl := Except.ok.inj h
      obtain rfl := Except.ok.inj hp
      simpa only [GenSpec.Derived, ho] using hs
    case h_2 => simp [bind, Except.bind] at h
  case h_2 ho =>
    obtain ⟨_, hs, h⟩ := bind_eq_ok.mp h
    obtain ⟨_, _, h⟩ := bind_eq_ok.mp h
    obtain rfl := Except.ok.inj h
    obtain rfl := Except.ok.inj hs
    simp only [GenSpec.Derived, ho]

theorem toPickArray_derived (hp : ∀ s ∈ w.pick, s.Short) (hr : ∀ s ∈ w.rest, s.Short)
    (h : w.toPickArray = .ok spec) : spec.Derived := by
  simp only [GenSpecWire.toPickArray] at h
  obtain ⟨_, _, h⟩ := bind_eq_ok.mp h
  split at h
  case h_1 => simp at h
  case h_2 length _ =>
    obtain ⟨_, _, h⟩ := bind_eq_ok.mp h
    split at h
    case h_2 => simp at h
    case h_1 =>
      obtain ⟨_, _, h⟩ := bind_eq_ok.mp h
      obtain ⟨_, _, h⟩ := bind_eq_ok.mp h
      obtain ⟨_, _, h⟩ := bind_eq_ok.mp h
      obtain ⟨set, hset, h⟩ := bind_eq_ok.mp h
      obtain ⟨_, _, h⟩ := bind_eq_ok.mp h
      obtain ⟨_, _, h⟩ := bind_eq_ok.mp h
      obtain rfl := Except.ok.inj h
      exact ⟨hset, hp, hr⟩

theorem tryInto_derived (hp : ∀ s ∈ w.pick, s.Short) (hr : ∀ s ∈ w.rest, s.Short)
    (h : w.tryInto lib = .ok spec) : spec.Derived := by
  unfold GenSpecWire.tryInto at h
  split at h
  case h_1 => exact toDate_derived h
  case h_2 =>
    simp only [GenSpecWire.toRandomInt] at h
    obtain ⟨_, _, h⟩ := bind_eq_ok.mp h
    split at h
    case h_2 => simp at h
    case h_1 =>
      obtain ⟨_, _, h⟩ := bind_eq_ok.mp h
      obtain ⟨_, _, h⟩ := bind_eq_ok.mp h
      obtain rfl := Except.ok.inj h
      trivial
  case h_3 =>
    obtain ⟨_, _, h⟩ := bind_eq_ok.mp h
    obtain rfl := Except.ok.inj h
    trivial
  case h_4 =>
    obtain ⟨_, _, h⟩ := bind_eq_ok.mp h
    obtain ⟨_, _, h⟩ := bind_eq_ok.mp h
    obtain rfl := Except.ok.inj h
    trivial
  case h_5 => exact toPickArray_derived hp hr h
  case h_6 => simp at h

theorem short_of_wire {o : Option Yaml} :
    ∀ s ∈ o.bind fun y => (presentValue y).toOption, s.Short := by
  intro s hs
  obtain ⟨y, _, hy⟩ := Option.bind_eq_some_iff.mp hs
  cases hv : presentValue y
  case error => simp [hv, Except.toOption] at hy
  case ok s' =>
    rw [hv] at hy
    exact Option.some.inj hy ▸ short_of_presentValue hv

@[simp]
def VarDecl.Canonical (lib : DeclLib) : VarDecl → Prop
  | .static _   => True
  | .gen spec _ => spec.Valid lib ∧ spec.Derived

theorem varDecl_canonical {y : Yaml} {d : VarDecl} (h : VarDecl.deserialize lib y = .ok d) :
    d.Canonical lib := by
  unfold VarDecl.deserialize at h
  split at h
  case h_1 => exact Except.ok.inj h ▸ trivial
  case h_3 => simp [invalid] at h
  case h_2 =>
    obtain ⟨m, _, h⟩ := bind_eq_ok.mp h
    cases d
    case static v =>
      obtain ⟨_, _, _, _, _, he⟩ := visitMap_eq_ok.mp h
      simp at he
    case gen spec refresh =>
      refine ⟨visitMap_valid h, ?_⟩
      obtain ⟨gen, _, _, spec', hs, he⟩ := visitMap_eq_ok.mp h
      obtain rfl := (VarDecl.gen.inj he).left
      exact tryInto_derived short_of_wire short_of_wire hs

theorem reads_varDecl {d : VarDecl} (h : d.Canonical lib) :
    Reads (VarDecl.deserialize lib) d.serialize d := by
  cases d
  case static v => exact ⟨.string v, rfl⟩
  case gen spec refresh =>
    rw [GenSpec.serialize_gen]
    refine reads_mapping (by simp [GenSpecWire.fields])
      (wire_trees (GenSpec.toWire_canonical h.left h.right)) fun m hm hl => ?_
    have hw := wire_deserialize lib (GenSpec.toWire_canonical h.left h.right) hl
    rw [VarDecl.deserialize, hm, ok_bind, VarDecl.visitMap, hw, ok_bind,
      GenSpec.tryInto_toWire h.left h.right]
    have hr : (skipIf (· = .iteration) refresh).getD .iteration = refresh := skipIf_getD (by simp)
    have hw : (spec.toWire (skipIf (· = .iteration) refresh)).refresh =
        skipIf (· = .iteration) refresh := by cases spec <;> rfl
    simp only [Except.mapError, ok_bind, hw, hr, pure, Except.pure]

end

end Engine
