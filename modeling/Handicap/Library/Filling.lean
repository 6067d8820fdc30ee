import Mathlib.Data.List.Basic
import Mathlib.Data.List.Nodup

-- Slots that are filled one after another, each by what the ones before it hold.
namespace Filling

variable {α β : Type*} {f : α → List (Option β) → Option β} {slot : α → ℕ} {a : α} {order : List α}
  {out : List (Option β)} {k : ℕ}

def fill (f : α → List (Option β) → Option β) (slot : α → ℕ) :
    List α → List (Option β) → Option (List (Option β))
  | [], out         => some out
  | a :: order, out => do
    let b ← f a out
    fill f slot order (out.set (slot a) (some b))

-- The slots that an entry reads are not filled by it or by later ones.
structure Ordered (f : α → List (Option β) → Option β) (slot : α → ℕ) (reads : α → ℕ → Prop)
    (order : List α) : Prop where
  total   : ∀ a ∈ order, ∀ out, (f a out).isSome
  reading : ∀ a ∈ order, ∀ out out', (∀ k, reads a k → out[k]? = out'[k]?) → f a out = f a out'
  own     : ∀ a ∈ order, ¬reads a (slot a)
  later   : order.Pairwise fun a b => slot a ≠ slot b ∧ ¬reads a (slot b)

variable {reads : α → ℕ → Prop}

theorem Ordered.tail (h : Ordered f slot reads (a :: order)) : Ordered f slot reads order where
  total b hb   := h.total b (List.mem_cons_of_mem a hb)
  reading b hb := h.reading b (List.mem_cons_of_mem a hb)
  own b hb     := h.own b (List.mem_cons_of_mem a hb)
  later        := h.later.of_cons

theorem get?_fill_of_ne {out' : List (Option β)} (hf : fill f slot order out = some out')
    (hk : ∀ a ∈ order, slot a ≠ k) : out'[k]? = out[k]? := by
  induction order generalizing out
  case nil =>
    obtain rfl := Option.some.inj hf
    rfl
  case cons a order ih =>
    obtain ⟨b, -, hf⟩ := Option.bind_eq_some_iff.mp hf
    rw [ih hf fun b hb => hk b (List.mem_cons_of_mem a hb),
      List.getElem?_set_ne (hk a List.mem_cons_self)]

-- In the end every slot holds what its entry makes of all of them.
theorem fill_eq (h : Ordered f slot reads order) (hs : ∀ a ∈ order, slot a < out.length) :
    ∃ out', fill f slot order out = some out' ∧ out'.length = out.length ∧
      ∀ a ∈ order, ∃ b, f a out' = some b ∧ out'[slot a]? = some (some b) := by
  induction order generalizing out
  case nil => exact ⟨out, rfl, rfl, fun a ha => absurd ha List.not_mem_nil⟩
  case cons a order ih =>
    obtain ⟨b, hb⟩ := Option.isSome_iff_exists.mp (h.total a List.mem_cons_self out)
    obtain ⟨hl, -⟩ := List.pairwise_cons.mp h.later
    have hset : ∀ c ∈ order, slot c < (out.set (slot a) (some b)).length := fun c hc =>
      List.length_set.symm ▸ hs c (List.mem_cons_of_mem a hc)
    obtain ⟨out', hf, hlen, hout⟩ := ih h.tail hset
    rw [List.length_set] at hlen
    have hkept {k : ℕ} (hk : ∀ c ∈ order, slot c ≠ k) : out'[k]? = (out.set (slot a) (some b))[k]? :=
      get?_fill_of_ne hf hk
    refine ⟨out', by rw [fill, hb]; exact hf, hlen, fun c hc => ?_⟩
    cases List.mem_cons.mp hc
    case inr hc => exact hout c hc
    case inl hc =>
      subst hc
      -- What the entry has read is as it was when the entry was computed.
      have hread : f c out = f c out' := h.reading c List.mem_cons_self out out' fun k hk => by
        have hne : slot c ≠ k := fun he => h.own c List.mem_cons_self (he ▸ hk)
        rw [hkept fun d hd he => (hl d hd).right (he ▸ hk), List.getElem?_set_ne hne]
      refine ⟨b, hread ▸ hb, ?_⟩
      rw [hkept fun d hd => (hl d hd).left.symm, List.getElem?_set_self (hs c List.mem_cons_self)]

theorem fill_congr {g : α → List (Option β) → Option β} (h : ∀ a ∈ order, f a = g a) :
    fill f slot order out = fill g slot order out := by
  induction order generalizing out
  case nil => rfl
  case cons a order ih =>
    simp only [fill, h a List.mem_cons_self, ih fun b hb => h b (List.mem_cons_of_mem a hb)]

-- Slots that are all filled are a list.
theorem exists_eq_map (h : ∀ o ∈ out, o.isSome) : ∃ l : List β, out = l.map some := by
  induction out
  case nil => exact ⟨[], rfl⟩
  case cons o out ih =>
    obtain ⟨b, rfl⟩ := Option.isSome_iff_exists.mp (h o List.mem_cons_self)
    obtain ⟨l, rfl⟩ := ih fun o ho => h o (List.mem_cons_of_mem _ ho)
    exact ⟨b :: l, rfl⟩

end Filling
