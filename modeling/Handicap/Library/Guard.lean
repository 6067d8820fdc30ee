import Mathlib.Data.List.Basic

-- Sequences of checks, each of which refuses with an error of its own.
namespace Guard

variable {ε : Type*} {α β : Type} {bad : Prop} [Decidable bad] {e : ε}

def refuse (bad : Prop) [Decidable bad] (e : ε) : Except ε Unit :=
  if bad then .error e else .ok ()

@[simp]
theorem refuse_eq_ok {u : Unit} : refuse bad e = .ok u ↔ ¬bad := by
  rw [refuse]
  split <;> simp_all

theorem bind_eq_ok {x : Except ε α} {f : α → Except ε β} {b : β} :
    (x >>= f) = .ok b ↔ ∃ a, x = .ok a ∧ f a = .ok b := by
  cases x <;> simp [bind, Except.bind]

theorem bind_eq_error {x : Except ε α} {f : α → Except ε β} :
    (x >>= f) = .error e ↔ x = .error e ∨ ∃ a, x = .ok a ∧ f a = .error e := by
  cases x <;> simp [bind, Except.bind]

theorem seq_eq_ok {x : Except ε Unit} {f : Unit → Except ε β} {b : β} :
    (x >>= f) = .ok b ↔ x = .ok () ∧ f () = .ok b :=
  Iff.trans bind_eq_ok ⟨fun ⟨(), h⟩ => h, fun h => ⟨(), h⟩⟩

theorem forM_eq_ok {l : List α} {f : α → Except ε Unit} :
    l.forM f = .ok () ↔ ∀ a ∈ l, f a = .ok () := by
  induction l
  case nil => simp [List.forM, pure, Except.pure]
  case cons a l ih =>
    change (f a >>= fun _ => l.forM f) = _ ↔ _
    rw [seq_eq_ok, ih, List.forall_mem_cons]

-- What every step preserves holds after all of them.
theorem foldlM_preserves {γ : Type} {P : γ → Prop} {f : γ → α → Except ε γ} {l : List α} {c c' : γ}
    (h₀ : P c) (hf : ∀ a ∈ l, ∀ c c', P c → f c a = .ok c' → P c')
    (h : l.foldlM f c = .ok c') : P c' := by
  induction l generalizing c
  case nil => exact Except.ok.inj h ▸ h₀
  case cons a l ih =>
    rw [List.foldlM_cons] at h
    obtain ⟨c₁, h₁, h⟩ := Iff.mp bind_eq_ok h
    exact ih (hf a (by simp) c c₁ h₀ h₁) (fun a' ha' => hf a' (by simp [ha'])) h

-- A check of every element, which may correct it and knows its number.
def each (f : ℕ → α → Except ε β) : ℕ → List α → Except ε (List β)
  | _, []     => .ok []
  | n, a :: l => do
    let b ← f n a
    let bs ← each f (n + 1) l
    return b :: bs

theorem each_cons_eq_ok {f : ℕ → α → Except ε β} {n : ℕ} {a : α} {l : List α} {bs : List β} :
    each f n (a :: l) = .ok bs ↔
      ∃ b, f n a = .ok b ∧ ∃ bs', each f (n + 1) l = .ok bs' ∧ b :: bs' = bs := by
  simp only [each, bind_eq_ok, pure, Except.pure, Except.ok.injEq]

theorem each_mem {f : ℕ → α → Except ε β} {n : ℕ} {l : List α} {bs : List β} {b : β}
    (h : each f n l = .ok bs) (hb : b ∈ bs) : ∃ a ∈ l, ∃ n, f n a = .ok b := by
  induction l generalizing n bs
  case nil => exact absurd (Except.ok.inj h ▸ hb) List.not_mem_nil
  case cons a l ih =>
    obtain ⟨b', hb', bs', hbs, rfl⟩ := Iff.mp each_cons_eq_ok h
    cases List.mem_cons.mp hb
    case inl he => exact ⟨a, by simp, n, he ▸ hb'⟩
    case inr hm =>
      have ⟨a', ha', h'⟩ := ih hbs hm
      exact ⟨a', by simp [ha'], h'⟩

theorem each_of_mem {f : ℕ → α → Except ε β} {n : ℕ} {l : List α} {bs : List β} {a : α}
    (h : each f n l = .ok bs) (ha : a ∈ l) : ∃ n b, f n a = .ok b := by
  induction l generalizing n bs
  case nil => simp at ha
  case cons a' l ih =>
    obtain ⟨b, hb, bs', hbs, rfl⟩ := Iff.mp each_cons_eq_ok h
    cases List.mem_cons.mp ha
    case inl he => exact ⟨n, b, he ▸ hb⟩
    case inr hm => exact ih hbs hm

theorem each_exists {f : ℕ → α → Except ε β} {n : ℕ} {l : List α}
    (h : ∀ a ∈ l, ∀ n, ∃ b, f n a = .ok b) : ∃ bs, each f n l = .ok bs := by
  induction l generalizing n
  case nil => exact ⟨[], rfl⟩
  case cons a l ih =>
    have ⟨ha, hl⟩ := List.forall_mem_cons.mp h
    have ⟨b, hb⟩ := ha n
    have ⟨bs, hbs⟩ := ih hl (n := n + 1)
    exact ⟨b :: bs, Iff.mpr each_cons_eq_ok ⟨b, hb, bs, hbs, rfl⟩⟩

-- What has been corrected passes, where each of the corrected elements does.
theorem each_eq_self {f : ℕ → α → Except ε β} {f' : ℕ → β → Except ε β} {n : ℕ} {l : List α}
    {bs : List β} (h : each f n l = .ok bs) (hf : ∀ n a b, f n a = .ok b → f' n b = .ok b) :
    each f' n bs = .ok bs := by
  induction l generalizing n bs
  case nil => exact Except.ok.inj h ▸ rfl
  case cons a l ih =>
    obtain ⟨b, hb, bs', hbs, rfl⟩ := Iff.mp each_cons_eq_ok h
    exact Iff.mpr each_cons_eq_ok ⟨b, hf n a b hb, bs', ih hbs, rfl⟩

-- What the check leaves as it is stays as it was.
theorem each_map {γ : Type*} {f : ℕ → α → Except ε α} {n : ℕ} {l l' : List α} {g : α → γ}
    (h : each f n l = .ok l') (hf : ∀ n a b, f n a = .ok b → g b = g a) : l'.map g = l.map g := by
  induction l generalizing n l'
  case nil => exact Except.ok.inj h ▸ rfl
  case cons a l ih =>
    obtain ⟨b, hb, bs', hbs, rfl⟩ := Iff.mp each_cons_eq_ok h
    simp [hf n a b hb, ih hbs]

theorem each_pointwise {γ : Type*} {f : ℕ → α → Except ε β} {n : ℕ} {l : List α} {bs : List β}
    {g : β → γ} {g' : α → γ} (h : each f n l = .ok bs) (hf : ∀ n a b, f n a = .ok b → g b = g' a) :
    bs.map g = l.map g' := by
  induction l generalizing n bs
  case nil => exact Except.ok.inj h ▸ rfl
  case cons a l ih =>
    obtain ⟨b, hb, bs', hbs, rfl⟩ := Iff.mp each_cons_eq_ok h
    simp [hf n a b hb, ih hbs]

theorem each_of_mem_left {f : ℕ → α → Except ε β} {n : ℕ} {l : List α} {bs : List β} {a : α}
    (h : each f n l = .ok bs) (ha : a ∈ l) : ∃ n, ∃ b ∈ bs, f n a = .ok b := by
  induction l generalizing n bs
  case nil => simp at ha
  case cons a' l ih =>
    obtain ⟨b, hb, bs', hbs, rfl⟩ := Iff.mp each_cons_eq_ok h
    cases List.mem_cons.mp ha
    case inl he => exact ⟨n, b, List.mem_cons_self, he ▸ hb⟩
    case inr hm =>
      obtain ⟨m, b', hm, hb'⟩ := ih hbs hm
      exact ⟨m, b', List.mem_cons_of_mem b hm, hb'⟩

-- A check that does not look at the numbers.
theorem each_const {f : α → Except ε β} {n : ℕ} {l : List α} : each (fun _ => f) n l = l.mapM f := by
  induction l generalizing n
  case nil => rfl
  case cons a l ih => rw [each, ih, List.mapM_cons]

-- Two results that are the same, unless the first one is an error of a kind.
def SameUnless (kind : ε → Prop) (x y : Except ε α) : Prop :=
  x = y ∨ ∃ e, kind e ∧ x = .error e

namespace SameUnless

variable {kind : ε → Prop} {x y : Except ε α}

theorem refl : SameUnless kind x x :=
  .inl rfl

theorem bind (h : SameUnless kind x y) {f g : α → Except ε β}
    (hf : ∀ a, SameUnless kind (f a) (g a)) : SameUnless kind (x >>= f) (y >>= g) := by
  cases h
  case inl h =>
    subst h
    cases x
    case error e => exact .inl rfl
    case ok a    => exact hf a
  case inr h =>
    obtain ⟨e, he, rfl⟩ := h
    exact .inr ⟨e, he, rfl⟩

theorem eq (h : SameUnless kind x y) (hk : ∀ e, ¬kind e) : x = y :=
  h.resolve_right fun ⟨e, he, _⟩ => hk e he

end SameUnless

end Guard
