import Mathlib.Data.List.Nodup
import Mathlib.Logic.Function.Basic

-- Tasks that run side by side, each of which has a list of sections left to run.
namespace Tasks

variable {τ J : Type*}

-- Some task has the section left to run.
def Pending (tasks : τ → List J) (j : J) : Prop :=
  ∃ t, j ∈ tasks t

variable {tasks : τ → List J} {t : τ} {j k : J} {js rest : List J}

theorem Pending.intro (h : tasks t = j :: rest) : Pending tasks j :=
  ⟨t, by simp [h]⟩

variable [DecidableEq τ]

theorem pending_update :
    Pending (Function.update tasks t js) j ↔ j ∈ js ∨ ∃ t', t' ≠ t ∧ j ∈ tasks t' := by
  constructor
  · rintro ⟨t', h⟩
    rw [Function.update_apply] at h
    split at h
    case isTrue => exact .inl h
    case isFalse hne => exact .inr ⟨t', hne, h⟩
  · rintro (h | ⟨t', hne, h⟩)
    · exact ⟨t, by rwa [Function.update_self]⟩
    · exact ⟨t', by rwa [Function.update_of_ne hne]⟩

-- What is left after a section has run was left before or follows from the section.
theorem Pending.of_run (hp : Pending (Function.update tasks t (js ++ rest)) k)
    (h : tasks t = j :: rest) : k ∈ js ∨ Pending tasks k := by
  cases Iff.mp pending_update hp
  case inl hk =>
    refine (List.mem_append.mp hk).imp_right fun hk => ⟨t, ?_⟩
    exact h ▸ List.mem_cons_of_mem j hk
  case inr hk => exact .inr ⟨hk.choose, hk.choose_spec.right⟩

-- A section stays left until it is run.
theorem Pending.run (hp : Pending tasks k) (h : tasks t = j :: rest) (hne : k ≠ j) :
    Pending (Function.update tasks t (js ++ rest)) k := by
  obtain ⟨t', hk⟩ := hp
  refine Iff.mpr pending_update ?_
  by_cases ht : t' = t
  · subst ht
    rw [h] at hk
    exact .inl (List.mem_append_right _ ((List.mem_cons.mp hk).resolve_left hne))
  · exact .inr ⟨t', ht, hk⟩

theorem Pending.follows (h : k ∈ js) : Pending (Function.update tasks t (js ++ rest)) k :=
  Iff.mpr pending_update (.inl (List.mem_append_left _ h))

theorem Pending.of_start (hp : Pending (Function.update tasks t js) k) : k ∈ js ∨ Pending tasks k :=
  (Iff.mp pending_update hp).imp_right fun ⟨t', _, hk⟩ => ⟨t', hk⟩

theorem Pending.start (hp : Pending tasks k) (h : tasks t = []) :
    Pending (Function.update tasks t js) k := by
  obtain ⟨t', hk⟩ := hp
  refine Iff.mpr pending_update (.inr ⟨t', ?_, hk⟩)
  rintro rfl
  simp [h] at hk

section Exclusive

variable {κ : Type*} {key : J → Option κ} {i : κ}

-- For every key, at most one section with that key is left, in any of the tasks.
structure Exclusive (key : J → Option κ) (tasks : τ → List J) : Prop where
  nodup    : ∀ t, ((tasks t).filterMap key).Nodup
  disjoint : ∀ t t', t ≠ t' → ((tasks t).filterMap key).Disjoint ((tasks t').filterMap key)

namespace Exclusive

-- A task may be given any sections instead of its own ones, as long as their keys are not held by
-- another task.
theorem replace (e : Exclusive key tasks) (hn : (js.filterMap key).Nodup)
    (hd : ∀ t', t' ≠ t → (js.filterMap key).Disjoint ((tasks t').filterMap key)) :
    Exclusive key (Function.update tasks t js) := by
  constructor
  case nodup =>
    intro t'
    rw [Function.update_apply]
    split
    case isTrue => exact hn
    case isFalse => exact e.nodup t'
  case disjoint =>
    intro t₁ t₂ hne
    simp only [Function.update_apply]
    split
    case isTrue h₁ =>
      rw [if_neg fun h₂ => hne (h₁.trans h₂.symm)]
      exact hd t₂ fun h₂ => hne (h₁.trans h₂.symm)
    case isFalse h₁ =>
      split
      case isTrue => exact fun i h h' => hd t₁ h₁ h' h
      case isFalse => exact e.disjoint t₁ t₂ hne

-- A section may hand its key on.
theorem run (e : Exclusive key tasks) (h : tasks t = j :: rest)
    (hs : (js.filterMap key).Sublist (key j).toList) :
    Exclusive key (Function.update tasks t (js ++ rest)) := by
  have hsub : ((js ++ rest).filterMap key).Sublist ((tasks t).filterMap key) := by
    rw [h, List.filterMap_append, List.filterMap_cons]
    cases hk : key j
    case none => simpa [hk] using hs
    case some => simpa [hk] using hs.append_right (rest.filterMap key)
  exact e.replace ((e.nodup t).sublist hsub) fun t' hne i hi =>
    e.disjoint t t' hne.symm (hsub.subset hi)

-- A task may start with sections that have no key.
theorem start (e : Exclusive key tasks) (h : ∀ j ∈ js, key j = none) :
    Exclusive key (Function.update tasks t js) := by
  have hs : js.filterMap key = [] := List.filterMap_eq_nil_iff.mpr h
  exact e.replace (hs ▸ .nil) fun t' _ => hs ▸ List.disjoint_nil_left _

-- A new key may be taken.
theorem take (e : Exclusive key tasks) (h : tasks t = j :: rest) (hs : js.filterMap key = [i])
    (hi : ∀ k, Pending tasks k → key k ≠ some i) :
    Exclusive key (Function.update tasks t (js ++ rest)) := by
  have hrest : (rest.filterMap key).Sublist ((tasks t).filterMap key) :=
    h ▸ (List.sublist_cons_self j rest).filterMap key
  have hnot t' : i ∉ (tasks t').filterMap key := by
    rw [List.mem_filterMap]
    rintro ⟨k, hk, he⟩
    exact hi k ⟨t', hk⟩ he
  refine e.replace ?_ fun t' hne => ?_
  · rw [List.filterMap_append, hs]
    exact List.nodup_cons.mpr ⟨fun h => hnot t (hrest.subset h), (e.nodup t).sublist hrest⟩
  · rw [List.filterMap_append, hs]
    intro i' hi' hm
    cases List.mem_cons.mp hi'
    case inl h => exact hnot t' (h ▸ hm)
    case inr h => exact e.disjoint t t' hne.symm (hrest.subset h) hm

omit [DecidableEq τ] in
-- Nobody else holds the key of a section that runs.
theorem alone (e : Exclusive key tasks) (h : tasks t = j :: rest) (hj : key j = some i)
    (hk : k ∈ rest ∨ ∃ t', t' ≠ t ∧ k ∈ tasks t') : key k ≠ some i := by
  intro hi
  have hn := e.nodup t
  rw [h, List.filterMap_cons_some hj] at hn
  cases hk
  case inl hk => exact (List.nodup_cons.mp hn).left (List.mem_filterMap.mpr ⟨k, hk, hi⟩)
  case inr hk =>
    obtain ⟨t', hne, hk⟩ := hk
    refine e.disjoint t t' hne.symm ?_ (List.mem_filterMap.mpr ⟨k, hk, hi⟩)
    rw [h, List.filterMap_cons_some hj]
    exact List.mem_cons_self

-- A section that runs may give its key away.
theorem release (e : Exclusive key tasks) (h : tasks t = j :: rest) (hj : key j = some i)
    (hp : Pending (Function.update tasks t (js ++ rest)) k) (hk : key k = some i) : k ∈ js := by
  cases Iff.mp pending_update hp
  case inl hm =>
    refine (List.mem_append.mp hm).resolve_right fun hm => ?_
    exact e.alone h hj (.inl hm) hk
  case inr hm => exact absurd hk (e.alone h hj (.inr hm))

end Exclusive

end Exclusive

end Tasks
