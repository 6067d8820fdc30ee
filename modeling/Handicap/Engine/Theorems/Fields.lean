import Handicap.Engine.Serde
import Handicap.Engine.Theorems.GenVars

-- Values that are read from what they are written as.
namespace Engine

open Guard (bind_eq_ok forM_eq_ok refuse_eq_ok)

-- A tree in which every mapping has every key once.
inductive Yaml.IsTree : Yaml → Prop
  | null : IsTree .null
  | bool (b : Bool) : IsTree (.bool b)
  | int (n : YamlInt) : IsTree (.int n)
  | wide (n : WideInt) : IsTree (.wide n)
  | float (q : Binary64.Double) : IsTree (.float q)
  | string (s : String) : IsTree (.string s)
  | sequence {items : List Yaml} (h : ∀ y ∈ items, IsTree y) : IsTree (.sequence items)
  | mapping {entries : List (String × Yaml)} (hn : (entries.map Prod.fst).Nodup)
      (h : ∀ e ∈ entries, IsTree e.2) : IsTree (.mapping entries)

attribute [simp] Yaml.IsTree.null Yaml.IsTree.string

@[simp]
theorem isTree_ofNat (n : ℕ) : (Yaml.ofNat n).IsTree :=
  .int _

-- The tree of a value, which it is read from.
structure Reads {α : Type} (read : Yaml → Except GenError α) (y : Yaml) (a : α) : Prop where
  tree : y.IsTree
  read : read y = .ok a

@[simp]
theorem ok_bind {ε α β : Type} {a : α} {f : α → Except ε β} : (Except.ok a >>= f) = f a :=
  rfl

@[simp]
theorem ok_map {ε α β : Type} {a : α} {f : α → β} : (f <$> Except.ok a : Except ε β) = .ok (f a) :=
  rfl

-- The fields of a mapping, of which those without a value are left out.
def collect (l : List (String × Option Yaml)) : List (String × Yaml) :=
  l.filterMap fun f => f.2.map fun y => (f.1, y)

section

variable {l : List (String × Option Yaml)} {key : String} {y : Yaml}

@[simp]
theorem collect_nil : collect [] = [] :=
  rfl

@[simp]
theorem collect_some : collect ((key, some y) :: l) = (key, y) :: collect l :=
  rfl

@[simp]
theorem collect_none : collect ((key, none) :: l) = collect l :=
  rfl

@[simp]
theorem collect_map {α : Type} {o : Option α} {f : α → Yaml} :
    collect ((key, o.map f) :: l) = entry key o f ++ collect l := by
  cases o <;> rfl

theorem mem_collect {e : String × Yaml} (h : e ∈ collect l) : (e.1, some e.2) ∈ l := by
  obtain ⟨f, hf, he⟩ := List.mem_filterMap.mp h
  obtain ⟨y, hy, rfl⟩ := Option.map_eq_some_iff.mp he
  exact hy ▸ hf

theorem collect_keys : ((collect l).map Prod.fst).Sublist (l.map Prod.fst) := by
  induction l
  case nil => exact .slnil
  case cons f l ih =>
    obtain ⟨k, o⟩ := f
    cases o
    case none   => exact ih.cons k
    case some y => exact ih.cons_cons k

theorem lookup_collect_none (h : key ∉ l.map Prod.fst) : (collect l).lookup key = none := by
  refine List.lookup_eq_none_iff.mpr fun e he => ?_
  have hm : e.1 ∈ l.map Prod.fst := List.mem_map_of_mem (f := Prod.fst) (mem_collect he)
  simpa using fun hk : key = e.1 => h (hk ▸ hm)

theorem lookup_collect {o : Option Yaml} (hn : (l.map Prod.fst).Nodup) (h : (key, o) ∈ l) :
    (collect l).lookup key = o := by
  induction l
  case nil => simp at h
  case cons g l ih =>
    obtain ⟨k, o'⟩ := g
    obtain ⟨hk, hl⟩ := List.nodup_cons.mp hn
    cases List.mem_cons.mp h
    case inl hf =>
      obtain ⟨rfl, rfl⟩ := Prod.mk.inj hf
      cases o
      case none   => exact @lookup_collect_none l key hk
      case some y => exact List.lookup_cons_self
    case inr hf =>
      have hm : key ∈ l.map Prod.fst := List.mem_map_of_mem (f := Prod.fst) hf
      have hne : key ≠ k := fun he => hk (he ▸ hm)
      cases o'
      case none   => exact ih hl hf
      case some y =>
        rw [collect_some, List.lookup_cons, beq_false_of_ne hne]
        exact ih hl hf

def Trees (l : List (String × Option Yaml)) : Prop :=
  ∀ f ∈ l, ∀ y ∈ f.2, y.IsTree

@[simp]
theorem trees_nil : Trees [] := by
  simp [Trees]

@[simp]
theorem trees_some : Trees ((key, some y) :: l) ↔ y.IsTree ∧ Trees l := by
  simp [Trees]

@[simp]
theorem trees_map {α : Type} {o : Option α} {f : α → Yaml} :
    Trees ((key, o.map f) :: l) ↔ (∀ a ∈ o, (f a).IsTree) ∧ Trees l := by
  simp [Trees]

-- The fields of a mapping are those of a list.
structure Mapping.Has (m : Mapping) (l : List (String × Option Yaml)) : Prop where
  keys : ∀ key ∈ m.keys, key ∈ l.map Prod.fst
  get  : ∀ f ∈ l, m.get f.1 = f.2

theorem fields_eq_ok {entries : List (String × Yaml)} {m : Mapping} (h : fields entries = .ok m) :
    m.entries = entries := by
  unfold fields at h
  split at h
  case isTrue  => exact Except.ok.inj h ▸ rfl
  case isFalse => simp at h

theorem exists_fields (hn : (l.map Prod.fst).Nodup) :
    ∃ m, fields (collect l) = .ok m ∧ m.Has l := by
  have hc : ((collect l).map Prod.fst).Nodup := collect_keys.nodup hn
  refine ⟨⟨collect l, hc⟩, dif_pos hc, ?_, ?_⟩
  case refine_1 => exact fun key hk => collect_keys.subset hk
  case refine_2 => exact fun f hf => lookup_collect hn hf

theorem isTree_collect (hn : (l.map Prod.fst).Nodup) (h : Trees l) :
    (Yaml.mapping (collect l)).IsTree :=
  .mapping (collect_keys.nodup hn) fun _ he => h _ (mem_collect he) _ rfl

end

section

variable {m : Mapping} {key : String} {y : Yaml} {α : Type} {a : α} {o : Option α}
  {f : α → Yaml}

theorem Mapping.Has.denyUnknown {l : List (String × Option Yaml)} {allowed : List String}
    (h : m.Has l) (ha : ∀ key ∈ l.map Prod.fst, key ∈ allowed) : denyUnknown m allowed = .ok () :=
  forM_eq_ok.mpr fun key hk => refuse_eq_ok.mpr (not_not.mpr (ha key (h.keys key hk)))

-- A mapping with the fields of a list is read as it is written.
theorem reads_mapping {l : List (String × Option Yaml)} {read : Yaml → Except GenError α}
    (hn : (l.map Prod.fst).Nodup) (ht : Trees l)
    (h : ∀ m, fields (collect l) = .ok m → m.Has l → read (.mapping (collect l)) = .ok a) :
    Reads read (.mapping (collect l)) a := by
  obtain ⟨m, hm, hl⟩ := exists_fields hn
  exact ⟨isTree_collect hn ht, h m hm hl⟩

theorem field_of_get {read : Yaml → Except GenError α} (h : m.get key = some y)
    (hr : read y = .ok a) : field m key read = .ok a := by
  simp only [field, h, hr]

theorem field_string {s : String} (h : m.get key = some (.string s)) :
    field m key deserializeString = .ok s :=
  field_of_get h rfl

theorem skipIf_eq_some {skip : α → Bool} {a' : α} (h : a' ∈ skipIf skip a) : a' = a := by
  unfold skipIf at h
  split at h
  case isTrue  => simp at h
  case isFalse => exact (Option.some.inj h).symm

theorem skipIf_getD {skip : α → Bool} {d : α} (h : skip a → a = d) :
    (skipIf skip a).getD d = a := by
  unfold skipIf
  split
  case isTrue hs => exact (h hs).symm
  case isFalse   => rfl

theorem reads_skipIf {read : Yaml → Except GenError α} (skip : α → Bool)
    (h : Reads read (f a) a) : ∀ a' ∈ skipIf skip a, Reads read (f a') a' :=
  fun _ hs => skipIf_eq_some hs ▸ h

theorem required_of_get {read : Yaml → Option α} (h : m.get key = some y)
    (hr : read y = some a) : required m key read = .ok a := by
  simp only [required, h, hr]

theorem present_of_get {read : Yaml → Except GenError α} (h : m.get key = o.map f)
    (hr : ∀ a ∈ o, read (f a) = .ok a) : present m key read = .ok o := by
  cases o
  case none   => simp only [present, h, Option.map_none]
  case some a => simp only [present, h, Option.map_some, hr a rfl, Except.map]

theorem present_of_some {read : Yaml → Except GenError α} (h : m.get key = some y)
    (hr : read y = .ok a) : present m key read = .ok (some a) := by
  simp only [present, h, hr, Except.map]

theorem orNull_of_get {read : Yaml → Except GenError α} (h : m.get key = o.map f)
    (hn : ∀ a, (f a).isNull = false) (hr : ∀ a ∈ o, read (f a) = .ok a) :
    orNull m key read = .ok o := by
  cases o
  case none   => simp only [orNull, h, Option.map_none]
  case some a =>
    have hn := hn a
    rw [orNull, h, Option.map_some]
    cases hy : f a
    case null => simp [hy, Yaml.isNull] at hn
    all_goals
      have hr := hr a rfl
      rw [hy] at hr
      simp only [hr, Except.map]

-- A field that is written as null if there is no value.
theorem orNull_of_getD {read : Yaml → Except GenError α}
    (h : m.get key = some ((o.map f).getD .null)) (hn : ∀ a, (f a).isNull = false)
    (hr : ∀ a ∈ o, read (f a) = .ok a) : orNull m key read = .ok o := by
  cases o
  case none   => simp only [orNull, h, Option.map_none, Option.getD_none]
  case some a => exact orNull_of_get h hn hr

theorem optional_of_get {read : Yaml → Option α} (h : m.get key = o.map f)
    (hn : ∀ a, (f a).isNull = false) (hr : ∀ a ∈ o, read (f a) = some a) :
    optional m key read = .ok o := by
  cases o
  case none   => simp only [optional, h, Option.map_none]
  case some a => exact Mapping.optional_of_read h (hn a) (hr a rfl)

theorem map_eq_ok {ε β : Type} {x : Except ε α} {g : α → β} {b : β} (h : x.map g = .ok b) :
    ∃ a, x = .ok a ∧ g a = b := by
  cases x
  case error => simp [Except.map] at h
  case ok a  => exact ⟨a, rfl, Except.ok.inj h⟩

-- What has been read as the value of a field is in the mapping.
theorem field_reads {read : Yaml → Except GenError α} (h : field m key read = .ok a) :
    ∃ y ∈ m.get key, read y = .ok a := by
  unfold field at h
  split at h
  case h_1      => simp at h
  case h_2 y hy => exact ⟨y, hy, h⟩

theorem present_reads {read : Yaml → Except GenError α} (h : present m key read = .ok o) :
    ∀ a ∈ o, ∃ y ∈ m.get key, read y = .ok a := by
  rintro a rfl
  unfold present at h
  split at h
  case h_1 => simp at h
  case h_2 y hy =>
    obtain ⟨a', hr, ha⟩ := map_eq_ok h
    exact ⟨y, hy, Option.some.inj ha ▸ hr⟩

theorem orNull_reads {read : Yaml → Except GenError α} (h : orNull m key read = .ok o) :
    ∀ a ∈ o, ∃ y ∈ m.get key, read y = .ok a := by
  rintro a rfl
  unfold orNull at h
  split at h
  case h_1 => simp at h
  case h_2 => simp at h
  case h_3 y _ hy =>
    obtain ⟨a', hr, ha⟩ := map_eq_ok h
    exact ⟨y, hy, Option.some.inj ha ▸ hr⟩

theorem optional_reads {read : Yaml → Option α} (h : optional m key read = .ok o) :
    ∀ a ∈ o, ∃ y ∈ m.get key, read y = some a := by
  rintro a rfl
  unfold optional at h
  split at h
  case h_1 => simp at h
  case h_2 => simp at h
  case h_3 y _ hy =>
    split at h
    case h_1 a' ha => exact ⟨y, hy, Option.some.inj (Except.ok.inj h) ▸ ha⟩
    case h_2       => simp at h

theorem required_reads {read : Yaml → Option α} (h : required m key read = .ok a) :
    ∃ y ∈ m.get key, read y = some a := by
  unfold required at h
  split at h
  case h_1 => simp at h
  case h_2 y hy =>
    split at h
    case h_1 a' ha => exact ⟨y, hy, Except.ok.inj h ▸ ha⟩
    case h_2       => simp at h

theorem mem_of_get (h : m.get key = some y) : (key, y) ∈ m.entries := by
  obtain ⟨l₁, l₂, he, _⟩ := List.lookup_eq_some_iff.mp h
  simp [he]

-- A field that is looked for entry by entry.
theorem eq_present {entries : List (String × Yaml)} {read : Yaml → Except GenError α}
    {find : List (String × Yaml) → Except GenError (Option α)} (hnil : find [] = .ok none)
    (hcons : ∀ k y l, find ((k, y) :: l) = if k = key then some <$> read y else find l)
    (hm : fields entries = .ok m) : find entries = present m key read := by
  rw [present, Mapping.get, fields_eq_ok hm]
  clear hm
  induction entries
  case nil => exact hnil
  case cons e entries ih =>
    obtain ⟨k, y⟩ := e
    rw [hcons, List.lookup_cons]
    split
    case isTrue hk =>
      rw [hk, beq_self_eq_true]
      dsimp only
      cases read y <;> rfl
    case isFalse hk =>
      rw [beq_false_of_ne (Ne.symm hk)]
      exact ih

end

end Engine
