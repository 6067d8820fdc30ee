import Mathlib.Data.List.Basic

-- Lists of labels in which the elements of one label stand next to each other. What has no label
-- may stand anywhere.
namespace Contiguous

variable {α κ : Type*} {l l₁ l₂ : List (Option κ)} {k : Option κ}

def Contiguous (l : List (Option κ)) : Prop :=
  ∀ g c, List.Sublist [some g, c, some g] l → c = some g

theorem Contiguous.sublist (h : Contiguous l) (hs : l₁.Sublist l) : Contiguous l₁ :=
  fun g c hc => h g c (hc.trans hs)

theorem contiguous_nil : Contiguous ([] : List (Option κ)) :=
  fun _ _ h => by simp at h

theorem Contiguous.cons (h : Contiguous l) (hk : ∀ g, k = some g → some g ∉ l) :
    Contiguous (k :: l) := by
  intro g c hs
  cases hs
  case cons hs   => exact h g c hs
  case cons_cons hs => exact absurd (hs.subset (by simp)) (hk g rfl)

theorem Contiguous.concat (h : Contiguous l) (hk : ∀ g, k = some g → some g ∉ l) :
    Contiguous (l ++ [k]) := by
  intro g c hs
  obtain ⟨s₁, s₂, he, h₁, h₂⟩ := List.sublist_append_iff.mp hs
  cases List.sublist_singleton.mp h₂
  case inl h₂ =>
    subst h₂
    exact h g c (by rw [he, List.append_nil]; exact h₁)
  case inr h₂ =>
    subst h₂
    have he : [some g, c] ++ [some g] = s₁ ++ [k] := he
    have ⟨he, hg⟩ := List.append_inj' he rfl
    have hm : some g ∈ l := h₁.subset (he ▸ by simp)
    exact absurd hm (hk g (List.singleton_inj.mp hg).symm)

-- An element may be put next to one of its label.
theorem Contiguous.dup (h : Contiguous (l₁ ++ k :: l₂)) : Contiguous (l₁ ++ k :: k :: l₂) := by
  intro g c hs
  obtain ⟨s₁, s₂, he, h₁, h₂⟩ := List.sublist_append_iff.mp hs
  have hold (h₂ : s₂.Sublist (k :: l₂)) : c = some g := h g c (he ▸ h₁.append h₂)
  cases h₂
  case cons h₂         => exact hold h₂
  case cons_cons s₂ h₂ =>
    cases h₂
    case cons h₂         => exact hold (h₂.cons_cons k)
    case cons_cons s₂ h₂ =>
      -- Both of the two are taken, so that one of them is in the middle.
      cases s₁
      case nil =>
        obtain ⟨rfl, rfl, -⟩ : some g = k ∧ c = k ∧ _ := by simpa using he
        rfl
      case cons x s₁ =>
        cases s₁
        case nil =>
          obtain ⟨-, rfl, rfl, -⟩ : some g = x ∧ c = k ∧ some g = k ∧ _ := by simpa using he
          rfl
        case cons y s₁ =>
          have hl : (2 : ℕ) ≤ 1 := by
            have := congrArg List.length he
            simp at this
            omega
          omega

theorem Contiguous.cons_dup (h : Contiguous (k :: l)) : Contiguous (k :: k :: l) :=
  have h : Contiguous ([] ++ k :: l) := h
  h.dup

-- The elements of the label that stands first come before all the others.
theorem Contiguous.filter_append_filter {g : κ} {key : α → Option κ} {l : List α}
    [DecidableEq κ] (h : Contiguous (some g :: l.map key)) :
    l.filter (key · = some g) ++ l.filter (key · ≠ some g) = l := by
  induction l
  case nil => rfl
  case cons a l ih =>
    by_cases ha : key a = some g
    case pos =>
      have hl : Contiguous (some g :: l.map key) := h.sublist (by simp)
      simpa [ha] using ih hl
    case neg =>
      have hm : ∀ b ∈ l, key b ≠ some g := by
        intro b hb hg
        have hs : [key b].Sublist (l.map key) := by simpa using ⟨b, hb, rfl⟩
        exact ha (h g (key a) (by simpa [hg] using hs))
      have hn : l.filter (key · = some g) = [] := by simpa using hm
      have ho : l.filter (key · ≠ some g) = l := by simpa using hm
      rw [List.filter_cons_of_neg (by simpa using ha), List.filter_cons_of_pos (by simpa using ha),
        hn, ho, List.nil_append]

end Contiguous
