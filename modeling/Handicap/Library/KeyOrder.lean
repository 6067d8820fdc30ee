import Mathlib.Order.Lattice

-- Lists of entries in the order of their keys, with every key once.
namespace KeyOrder

section

variable {κ α : Type*} [LinearOrder κ]

-- The value of a key that is there already is replaced.
def insert (k : κ) (a : α) : List (κ × α) → List (κ × α)
  | []     => [(k, a)]
  | e :: l =>
    if k < e.1 then (k, a) :: e :: l
    else if k = e.1 then (k, a) :: l
    else e :: insert k a l

def ofList (l : List (κ × α)) : List (κ × α) :=
  l.foldl (fun m e => insert e.1 e.2 m) []

def Ordered (l : List (κ × α)) : Prop :=
  l.Pairwise fun e e' => e.1 < e'.1

variable {k : κ} {a : α} {e : κ × α} {l m : List (κ × α)}

theorem mem_insert (h : e ∈ insert k a l) : e = (k, a) ∨ e ∈ l := by
  induction l
  case nil => exact .inl (List.mem_singleton.mp h)
  case cons e' l ih =>
    unfold insert at h
    split at h
    case isTrue => exact List.mem_cons.mp h
    case isFalse =>
      split at h
      case isTrue => exact (List.mem_cons.mp h).imp_right (List.mem_cons_of_mem _)
      case isFalse =>
        cases List.mem_cons.mp h
        case inl h => exact .inr (h ▸ List.mem_cons_self)
        case inr h => exact (ih h).imp_right (List.mem_cons_of_mem _)

theorem insert_ordered (h : Ordered l) : Ordered (insert k a l) := by
  induction l
  case nil => exact List.pairwise_singleton ..
  case cons e' l ih =>
    obtain ⟨he, hl⟩ := List.pairwise_cons.mp h
    unfold insert
    split
    case isTrue hlt =>
      refine List.pairwise_cons.mpr ⟨fun e hm => ?_, h⟩
      cases List.mem_cons.mp hm
      case inl hm => exact hm ▸ hlt
      case inr hm => exact hlt.trans (he e hm)
    case isFalse hn =>
      split
      case isTrue heq => exact List.pairwise_cons.mpr ⟨fun e hm => heq ▸ he e hm, hl⟩
      case isFalse hne =>
        have hlt : e'.1 < k := lt_of_le_of_ne (not_lt.mp hn) (Ne.symm hne)
        refine List.pairwise_cons.mpr ⟨fun e hm => ?_, ih hl⟩
        cases mem_insert hm
        case inl hm => exact hm ▸ hlt
        case inr hm => exact he e hm

theorem insert_of_lt (h : ∀ e ∈ l, e.1 < k) : insert k a l = l ++ [(k, a)] := by
  induction l
  case nil => rfl
  case cons e' l ih =>
    obtain ⟨he, hl⟩ := List.forall_mem_cons.mp h
    rw [insert, if_neg he.not_gt, if_neg he.ne', ih hl]
    rfl

theorem foldl_ordered (h : Ordered m) :
    Ordered (l.foldl (fun m e => insert e.1 e.2 m) m) := by
  induction l generalizing m
  case nil => exact h
  case cons e l ih => exact ih (insert_ordered h)

theorem ofList_ordered (l : List (κ × α)) : Ordered (ofList l) :=
  foldl_ordered .nil

theorem mem_ofList (h : e ∈ ofList l) : e ∈ l := by
  suffices hs : ∀ m, e ∈ l.foldl (fun m e => insert e.1 e.2 m) m → e ∈ m ∨ e ∈ l from
    (hs [] h).resolve_left (List.not_mem_nil)
  clear h
  induction l
  case nil => exact fun m h => .inl h
  case cons e' l ih =>
    intro m h
    cases ih _ h
    case inl h =>
      cases mem_insert h
      case inl h => exact .inr (h ▸ List.mem_cons_self)
      case inr h => exact .inl h
    case inr h => exact .inr (List.mem_cons_of_mem _ h)

-- A list in order is built as it is.
theorem ofList_eq_self (h : Ordered l) : ofList l = l := by
  suffices hs : ∀ m, Ordered (m ++ l) → l.foldl (fun m e => insert e.1 e.2 m) m = m ++ l from
    hs [] h
  clear h
  induction l
  case nil => exact fun m _ => (List.append_nil m).symm
  case cons e l ih =>
    intro m h
    have hlt : ∀ e' ∈ m, e'.1 < e.1 := fun e' hm =>
      (List.pairwise_append.mp h).right.right e' hm e List.mem_cons_self
    rw [List.foldl_cons, insert_of_lt hlt, ih, List.append_assoc]
    · rfl
    · rwa [List.append_assoc]

theorem Ordered.nodup (h : Ordered l) : (l.map Prod.fst).Nodup :=
  List.pairwise_map.mpr (h.imp fun hlt => hlt.ne)

end

end KeyOrder
