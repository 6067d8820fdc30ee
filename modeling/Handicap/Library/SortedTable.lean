import Handicap.Library.Table
import Mathlib.Data.Finmap
import Mathlib.Data.Finset.Sort

-- Tables whose entries come in the order of their keys.
abbrev SortedTable (κ α : Type*) := Finmap fun _ : κ => α

namespace SortedTable

variable {κ α : Type*}

-- The sum of a measure of the entries.
def sum (f : κ → α → ℕ) (t : SortedTable κ α) : ℕ :=
  (t.entries.map fun e => f e.1 e.2).sum

variable [LinearOrder κ]

-- The value of a key is changed. A key without a value is given the default one first.
def update (k : κ) (d : α) (g : α → α) (t : SortedTable κ α) : SortedTable κ α :=
  t.insert k (g ((t.lookup k).getD d))

def toList (t : SortedTable κ α) : List (κ × α) :=
  t.keys.sort.filterMap fun k => (t.lookup k).map (k, ·)

variable {f : κ → α → ℕ} {t : SortedTable κ α} {k k' : κ} {d : α} {g g' : α → α} {n : ℕ}

theorem lookup_update :
    (t.update k d g).lookup k' = if k' = k then some (g ((t.lookup k).getD d)) else t.lookup k' := by
  split_ifs
  case pos h => rw [h, update, Finmap.lookup_insert]
  case neg h => rw [update, Finmap.lookup_insert_of_ne _ h]

theorem mem_update : k' ∈ t.update k d g ↔ k' = k ∨ k' ∈ t :=
  Finmap.mem_insert

-- Updates commute where the changes of their values do.
theorem update_comm (h : k = k' → ∀ a, g (g' a) = g' (g a)) :
    (t.update k d g).update k' d g' = (t.update k' d g').update k d g := by
  refine Finmap.ext_lookup fun x => ?_
  cases Decidable.em (k = k')
  case inl he =>
    subst he
    cases Decidable.em (x = k) <;> simp_all [lookup_update]
  case inr he =>
    have he' : ¬k' = k := fun h => he h.symm
    cases Decidable.em (x = k)
    case inl hx => simp [lookup_update, hx, he]
    case inr hx => cases Decidable.em (x = k') <;> simp_all [lookup_update]

theorem sum_update (hd : f k d = 0)
    (hg : ∀ b, t.lookup k = some b ∨ b = d → f k (g b) = f k b + n) :
    sum f (t.update k d g) = sum f t + n := by
  induction t using Finmap.induction_on
  case H s =>
    have h := Table.sum_update (t := s) hd hg
    simpa [sum, Table.sum, update, Table.update] using h

-- The measure that counts the value of one key only.
theorem sum_single {k : κ} {t : SortedTable κ ℕ} :
    sum (fun x n => if x = k then n else 0) t = (t.lookup k).getD 0 := by
  induction t using Finmap.induction_on
  case H s =>
    have h := Table.sum_kerase (f := fun x n => if x = k then n else 0) (k := k) s.entries
    have hk : (s.entries.kerase k).map (fun e => if e.1 = k then e.2 else 0) =
        (s.entries.kerase k).map fun _ => 0 := by
      refine List.map_congr_left fun e he => if_neg fun hc => ?_
      exact List.notMem_keys_kerase k s.nodupKeys (List.mem_keys.mpr ⟨e.2, hc ▸ he⟩)
    have hs : sum (fun x n => if x = k then n else 0) s.toFinmap =
        (s.entries.map fun e => if e.1 = k then e.2 else 0).sum := rfl
    have hl : s.toFinmap.lookup k = s.entries.dlookup k := rfl
    rw [hs, hl, h, hk]
    cases s.entries.dlookup k <;> simp

theorem filterMap_keys {l : List (Sigma fun _ : κ => α)} (h : l.NodupKeys) :
    (l.keys.filterMap fun k => (l.dlookup k).map (k, ·)) = l.map fun e => (e.1, e.2) := by
  rw [List.keys, List.filterMap_map, ← List.filterMap_eq_map]
  refine List.filterMap_congr fun e he => ?_
  have hd : l.dlookup e.1 = some e.2 := List.mem_dlookup h he
  simp [hd]

-- The list has each entry once.
theorem toList_perm (s : Table κ α) : (toList s.toFinmap).Perm s.toList := by
  have hp : (Finmap.keys s.toFinmap).sort.Perm s.entries.keys :=
    Multiset.coe_eq_coe.mp (Finset.sort_eq ..)
  have h := filterMap_keys s.nodupKeys
  rw [Table.toList, ← h]
  exact hp.filterMap _

theorem sum_toList : (t.toList.map fun e => f e.1 e.2).sum = sum f t := by
  induction t using Finmap.induction_on
  case H s =>
    rw [((toList_perm s).map _).sum_eq, ← Table.sum_toList]
    rfl

theorem map_fst_toList : t.toList.map Prod.fst = t.keys.sort := by
  have hk : ∀ k ∈ t.keys.sort, (t.lookup k).isSome := fun k hk =>
    Finmap.lookup_isSome.mpr (Finmap.mem_keys.mp ((Finset.mem_sort _).mp hk))
  rw [toList, List.map_filterMap]
  generalize t.keys.sort = l at hk
  induction l
  case nil => rfl
  case cons k l ih =>
    have ⟨a, ha⟩ := Option.isSome_iff_exists.mp (hk k (by simp))
    simp only [List.filterMap_cons, ha, Option.map_some, ih fun k hm => hk k (by simp [hm])]

theorem nodup_toList : (t.toList.map Prod.fst).Nodup := by
  rw [map_fst_toList]
  exact Finset.sort_nodup t.keys (· ≤ ·)

theorem mem_map_fst_toList : k ∈ t.toList.map Prod.fst ↔ k ∈ t := by
  rw [map_fst_toList, Finset.mem_sort, Finmap.mem_keys]

theorem mem_toList {a : α} : (k, a) ∈ t.toList ↔ t.lookup k = some a := by
  simp only [toList, List.mem_filterMap, Option.map_eq_some_iff, Prod.mk.injEq]
  constructor
  case mp =>
    rintro ⟨_, _, _, h, rfl, rfl⟩
    exact h
  case mpr =>
    intro h
    have hk : k ∈ t := Finmap.lookup_isSome.mp (h ▸ rfl)
    exact ⟨k, (Finset.mem_sort _).mpr (Finmap.mem_keys.mpr hk), a, h, rfl, rfl⟩

-- The first entry has the least key.
theorem head?_toList : (t.toList.map Prod.fst).head? = some k ↔ IsLeast {k | k ∈ t} k := by
  have hs : (t.toList.map Prod.fst).Pairwise (· ≤ ·) := by
    rw [map_fst_toList]
    exact Finset.pairwise_sort ..
  have hm (x : κ) : x ∈ t.toList.map Prod.fst ↔ x ∈ t := mem_map_fst_toList
  generalize t.toList.map Prod.fst = l at hs hm
  cases l
  case nil => simp [IsLeast, ← hm]
  case cons x l =>
    have hx : IsLeast {k | k ∈ t} x := by
      refine ⟨(hm x).mp List.mem_cons_self, fun y hy => ?_⟩
      cases List.mem_cons.mp ((hm y).mpr hy)
      case inl he => exact he.ge
      case inr hl => exact List.rel_of_pairwise_cons hs hl
    rw [List.head?_cons, Option.some_inj]
    exact ⟨fun he => he ▸ hx, hx.unique⟩

-- The last entry has the greatest key.
theorem getLast?_toList : (t.toList.map Prod.fst).getLast? = some k ↔ IsGreatest {k | k ∈ t} k := by
  have hs : (t.toList.map Prod.fst).Pairwise (· ≤ ·) := by
    rw [map_fst_toList]
    exact Finset.pairwise_sort ..
  have hm (x : κ) : x ∈ t.toList.map Prod.fst ↔ x ∈ t := mem_map_fst_toList
  generalize t.toList.map Prod.fst = l at hs hm
  induction l using List.reverseRecOn
  case nil => simp [IsGreatest, ← hm]
  case append_singleton l x _ =>
    have hx : IsGreatest {k | k ∈ t} x := by
      refine ⟨(hm x).mp (by simp), fun y hy => ?_⟩
      cases List.mem_append.mp ((hm y).mpr hy)
      case inl hl => exact (List.pairwise_append.mp hs).2.2 y hl x (by simp)
      case inr he => exact (List.mem_singleton.mp he).le
    rw [List.getLast?_concat, Option.some_inj]
    exact ⟨fun he => he ▸ hx, hx.unique⟩

end SortedTable
