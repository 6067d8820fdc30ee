import Handicap.Library.Text

-- Texts that are put together from pieces, of which some are stripped.
namespace Text

-- The pieces that are stripped consist of what is stripped, and the others have ends that are not.
structure Piecewise {α β : Type*} (p : α → Bool) (q : β → Bool) (f : β → List α) : Prop where
  stripped : ∀ b, q b → ∀ a ∈ f b, p a
  front    : ∀ b, ¬q b → ∃ a l, f b = a :: l ∧ ¬p a
  back     : ∀ b, ¬q b → ∃ a l, f b = l ++ [a] ∧ ¬p a

namespace Piecewise

variable {α β : Type*} {p : α → Bool} {q : β → Bool} {f : β → List α}

theorem reverse (h : Piecewise p q f) : Piecewise p q fun b => (f b).reverse where
  stripped b hb a ha := h.stripped b hb a (List.mem_reverse.mp ha)
  front b hb := by
    obtain ⟨a, l, hf, ha⟩ := h.back b hb
    exact ⟨a, l.reverse, by rw [hf, List.reverse_append]; rfl, ha⟩
  back b hb := by
    obtain ⟨a, l, hf, ha⟩ := h.front b hb
    exact ⟨a, l.reverse, by rw [hf, List.reverse_cons], ha⟩

theorem dropWhile (h : Piecewise p q f) (l : List β) :
    (l.flatMap f).dropWhile p = (l.dropWhile q).flatMap f := by
  induction l
  case nil => rfl
  case cons b l ih =>
    rw [List.flatMap_cons]
    by_cases hb : q b
    case pos =>
      rw [List.dropWhile_append_of_pos (h.stripped b hb), ih, List.dropWhile_cons_of_pos hb]
    case neg =>
      obtain ⟨a, m, hf, ha⟩ := h.front b hb
      rw [List.dropWhile_cons_of_neg hb, List.flatMap_cons, hf, List.cons_append,
        List.dropWhile_cons_of_neg ha]

theorem takeWhile (h : Piecewise p q f) (l : List β) :
    (l.flatMap f).takeWhile p = (l.takeWhile q).flatMap f := by
  have ht := List.takeWhile_append_dropWhile (p := p) (l := l.flatMap f)
  have hq := congrArg (List.flatMap f) (List.takeWhile_append_dropWhile (p := q) (l := l))
  rw [h.dropWhile] at ht
  rw [List.flatMap_append] at hq
  exact List.append_cancel_right (ht.trans hq.symm)

theorem rdropWhile (h : Piecewise p q f) (l : List β) :
    (l.flatMap f).rdropWhile p = (l.rdropWhile q).flatMap f := by
  rw [List.rdropWhile, List.rdropWhile, List.reverse_flatMap]
  have hd := h.reverse.dropWhile l.reverse
  rw [Function.comp_def, hd, List.reverse_flatMap]
  simp [Function.comp_def]

theorem rtakeWhile (h : Piecewise p q f) (l : List β) :
    (l.flatMap f).rtakeWhile p = (l.rtakeWhile q).flatMap f := by
  have ht := List.rdropWhile_append_rtakeWhile (p := p) (l := l.flatMap f)
  have hq := congrArg (List.flatMap f) (List.rdropWhile_append_rtakeWhile (p := q) (l := l))
  rw [h.rdropWhile] at ht
  rw [List.flatMap_append] at hq
  exact List.append_cancel_left (ht.trans hq.symm)

theorem strip (h : Piecewise p q f) (l : List β) :
    Text.strip p (l.flatMap f) = (Text.strip q l).flatMap f := by
  rw [Text.strip, h.dropWhile, h.rdropWhile, Text.strip]

end Piecewise

end Text
