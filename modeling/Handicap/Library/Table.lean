import Mathlib.Data.List.AList
import Mathlib.Algebra.BigOperators.Group.List.Basic
import Mathlib.Tactic.Ring

-- Tables of values by their keys, and what the values add up to.
abbrev Table (κ α : Type*) := AList fun _ : κ => α

namespace Table

variable {κ α : Type*}

-- The sum of a measure of the entries.
def sum (f : κ → α → ℕ) (t : Table κ α) : ℕ :=
  (t.entries.map fun e => f e.1 e.2).sum

-- The entries that meet a condition, and the table without them.
def extract (p : κ → Bool) (t : Table κ α) : List (κ × α) × Table κ α :=
  ((t.entries.filter (p ·.1)).map fun e => (e.1, e.2),
    ⟨t.entries.filter (!p ·.1), t.nodupKeys.sublist List.filter_sublist⟩)

-- Every value is changed.
def mapValues (f : κ → α → α) (t : Table κ α) : Table κ α :=
  ⟨t.entries.map fun e => ⟨e.1, f e.1 e.2⟩, by
    simpa [List.NodupKeys, List.keys, Function.comp_def] using t.nodupKeys⟩

-- All entries.
def toList (t : Table κ α) : List (κ × α) :=
  t.entries.map fun e => (e.1, e.2)

-- What every step of a loop adds to a measure adds up over the loop.
theorem foldl_measure {β γ : Type*} {F : β → γ → β} {M : β → ℕ} {m : γ → ℕ}
    (h : ∀ b c, M (F b c) = M b + m c) (b : β) (l : List γ) :
    M (l.foldl F b) = M b + (l.map m).sum := by
  induction l generalizing b
  case nil => simp
  case cons c l ih =>
    rw [List.foldl_cons, ih, h, List.map_cons, List.sum_cons, Nat.add_assoc]

@[simp]
theorem sum_empty {f : κ → α → ℕ} : sum f (∅ : Table κ α) = 0 :=
  rfl

variable [DecidableEq κ]

-- The value of a key is changed. A key without a value is given the default one first.
def update (k : κ) (d : α) (g : α → α) (t : Table κ α) : Table κ α :=
  t.insert k (g ((t.lookup k).getD d))

variable {f : κ → α → ℕ} {t : Table κ α} {k : κ} {a d : α} {g : α → α} {p : κ → Bool} {n : ℕ}

omit [DecidableEq κ] in
theorem sum_toList : t.sum f = (t.toList.map fun e => f e.1 e.2).sum := by
  simp [sum, toList, Function.comp_def]

omit [DecidableEq κ] in
theorem sum_extract :
    ((t.extract p).1.map fun e => f e.1 e.2).sum + (t.extract p).2.sum f = t.sum f := by
  simp only [extract, sum, List.map_map]
  generalize t.entries = l
  induction l
  case nil => rfl
  case cons e l ih =>
    cases h : p e.1 <;> simp_all [Function.comp_def] <;> omega

theorem lookup_of_extract (h : (t.extract p).2.lookup k = some a) : t.lookup k = some a := by
  have hm := List.mem_of_mem_filter (AList.mem_lookup_iff.mp h)
  exact AList.mem_lookup_iff.mpr hm

theorem mem_keys_update {k' : κ} : k' ∈ (t.update k d g).keys ↔ k' = k ∨ k' ∈ t.keys :=
  AList.mem_insert t

theorem lookup_of_mem_extract (h : (k, a) ∈ (t.extract p).1) : t.lookup k = some a ∧ p k := by
  have ⟨e, he, hk⟩ := List.mem_map.mp h
  have ⟨hm, hp⟩ := List.mem_filter.mp he
  cases hk
  exact ⟨AList.mem_lookup_iff.mpr hm, hp⟩

theorem lookup_of_mem_toList (h : (k, a) ∈ t.toList) : t.lookup k = some a := by
  have ⟨e, he, hk⟩ := List.mem_map.mp h
  cases hk
  exact AList.mem_lookup_iff.mpr he

omit [DecidableEq κ] in
-- The keys are split between what is extracted and what is left.
theorem keys_extract : ((t.extract p).1.map Prod.fst ++ (t.extract p).2.keys).Perm t.keys := by
  have h := (List.filter_append_perm (fun e : Sigma fun _ : κ => α => p e.1) t.entries).map Sigma.fst
  simpa [extract, AList.keys, List.keys, Function.comp_def] using h

omit [DecidableEq κ] in
theorem keys_toList : t.toList.map Prod.fst = t.keys := by
  simp [toList, AList.keys, List.keys, Function.comp_def]

theorem lookup_foldl_of_notMem {β γ : Type*} {F : β → γ → β} {T : β → Table κ α} {key : γ → κ}
    {v : γ → Option α} (hF : ∀ b c, T (F b c) = (v c).elim (T b) ((T b).insert (key c))) {b : β}
    {l : List γ} (hk : k ∉ l.map key) : (T (l.foldl F b)).lookup k = (T b).lookup k := by
  induction l generalizing b
  case nil => rfl
  case cons c l ih =>
    have ⟨hne, hk⟩ := not_or.mp fun h => hk (List.mem_cons.mpr h)
    rw [List.foldl_cons, ih hk, hF]
    cases v c
    case none => rfl
    case some a => exact AList.lookup_insert_ne hne

-- A loop that inserts a value for each of some distinct keys.
theorem lookup_foldl {β γ : Type*} {F : β → γ → β} {T : β → Table κ α} {key : γ → κ}
    {v : γ → Option α} (hF : ∀ b c, T (F b c) = (v c).elim (T b) ((T b).insert (key c))) {b : β}
    {l : List γ} (hn : (l.map key).Nodup) {c : γ} (hc : c ∈ l) (hv : v c = some a) :
    (T (l.foldl F b)).lookup (key c) = some a := by
  induction l generalizing b
  case nil => cases hc
  case cons c' l ih =>
    have ⟨hk, hn⟩ := List.nodup_cons.mp hn
    cases List.mem_cons.mp hc
    case inr hc => exact ih hn hc
    case inl he =>
      subst he
      rw [List.foldl_cons, lookup_foldl_of_notMem hF hk, hF, hv]
      exact AList.lookup_insert _

theorem sum_kerase (l : List (Sigma fun _ : κ => α)) :
    (l.map fun e => f e.1 e.2).sum =
      ((l.dlookup k).elim 0 (f k)) + ((l.kerase k).map fun e => f e.1 e.2).sum := by
  induction l
  case nil => rfl
  case cons e l ih =>
    cases Decidable.em (k = e.1)
    case inl h =>
      subst h
      have hd : (e :: l).dlookup e.1 = some e.2 := List.dlookup_cons_eq l e.1 e.2
      simp [List.kerase_cons_eq, hd]
    case inr h =>
      rw [List.dlookup_cons_ne _ _ h, List.kerase_cons_ne h]
      simp only [List.map_cons, List.sum_cons, ih]
      ring

-- What is put into a table takes the place of what was there.
theorem sum_insert : sum f (t.insert k a) + (t.lookup k).elim 0 (f k) = t.sum f + f k a := by
  have h := sum_kerase (f := f) (k := k) t.entries
  simp only [sum, AList.entries_insert, List.map_cons, List.sum_cons]
  rw [h]
  simp only [AList.lookup]
  ring

theorem sum_update (hd : f k d = 0)
    (hg : ∀ b, t.lookup k = some b ∨ b = d → f k (g b) = f k b + n) :
    sum f (t.update k d g) = t.sum f + n := by
  have h := sum_insert (f := f) (t := t) (k := k) (a := g ((t.lookup k).getD d))
  cases hl : t.lookup k
  case none =>
    simp only [hl, Option.elim_none, Option.getD_none] at h
    simp only [update, hl, Option.getD_none]
    have hn := hg d (.inr rfl)
    omega
  case some b =>
    simp only [hl, Option.elim_some, Option.getD_some] at h
    simp only [update, hl, Option.getD_some]
    have hn := hg b (.inl hl)
    omega

end Table
