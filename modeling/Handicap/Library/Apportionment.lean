import Mathlib.Data.List.Basic
import Mathlib.Data.List.Nodup
import Mathlib.Data.List.Sort
import Mathlib.Algebra.Order.BigOperators.Group.List
import Mathlib.Algebra.Order.Floor.Div
import Mathlib.Tactic.Ring
import Handicap.Library.Tiling

-- Three ways of dividing a total among the members of a group: evenly, evenly up to a cap on each
-- member, and in proportion to weights by the method of largest remainders.
namespace Apportionment

section Even

variable {total n i : ℕ}

def evenShare (total n i : ℕ) : ℕ :=
  total / n + if i < total % n then 1 else 0

def evenOffset (total n i : ℕ) : ℕ :=
  i * (total / n) + min i (total % n)

def evenShares (total n : ℕ) : List ℕ :=
  (List.range n).map (evenShare total n)

@[simp]
theorem evenOffset_zero : evenOffset total n 0 = 0 := by
  simp [evenOffset]

theorem evenOffset_succ :
    evenOffset total n (i + 1) = evenOffset total n i + evenShare total n i := by
  simp only [evenOffset, evenShare, Nat.add_mul, Nat.one_mul]
  split <;> omega

theorem evenOffset_last (h : 0 < n) : evenOffset total n n = total := by
  have hr := Nat.mod_lt total h
  have hd := Nat.div_add_mod total n
  simp only [evenOffset]
  omega

theorem evenShares_tiles (total : ℕ) (h : 0 < n) :
    Tiling.Tiles 0 total <| (List.range n).map fun i =>
      (evenOffset total n i, evenShare total n i) := by
  have t := Tiling.tiles_map_range (evenOffset total n) (evenShare total n) n
    fun _ _ => evenOffset_succ
  rwa [evenOffset_zero, evenOffset_last h] at t

@[simp]
theorem evenShares_length : (evenShares total n).length = n := by
  simp [evenShares]

theorem evenShares_sum (total : ℕ) (h : 0 < n) : (evenShares total n).sum = total := by
  have hs := (evenShares_tiles total h).sum
  simpa [evenShares, Function.comp_def] using hs

-- The share of member `i` as a single quotient.
theorem evenShare_eq_div (h : i < n) : evenShare total n i = (total + (n - 1 - i)) / n := by
  have hn : 0 < n := by omega
  have hr := Nat.mod_lt total hn
  have hd := Nat.div_add_mod total n
  symm
  rw [evenShare]
  split
  case isTrue hi =>
    refine Nat.div_eq_of_lt_le ?_ ?_ <;> simp only [Nat.add_mul, Nat.mul_comm (total / n)] <;> omega
  case isFalse hi =>
    refine Nat.div_eq_of_lt_le ?_ ?_ <;> simp only [Nat.add_mul, Nat.mul_comm (total / n)] <;> omega

theorem evenShare_mono {total' : ℕ} (h : i < n) (ht : total ≤ total') :
    evenShare total n i ≤ evenShare total' n i := by
  rw [evenShare_eq_div h, evenShare_eq_div h]
  exact Nat.div_le_div_right (Nat.add_le_add_right ht _)

theorem evenShare_le_first (total n i : ℕ) : evenShare total n i ≤ evenShare total n 0 := by
  simp only [evenShare]
  split <;> split <;> omega

theorem evenShare_pos (h : i < n) (ht : n ≤ total) : 1 ≤ evenShare total n i :=
  Nat.le_add_right_of_le (Nat.div_pos ht (by omega))

theorem evenOffset_add_evenShare_le (total : ℕ) (h : i < n) :
    evenOffset total n i + evenShare total n i ≤ total :=
  have t := evenShares_tiles total (Nat.zero_lt_of_lt h)
  (t.within (List.mem_map_of_mem (List.mem_range.mpr h))).right

end Even

section Capped

variable {spare : ℕ} {as cs : List ℕ}

-- What the members hold above their caps.
def excess (as cs : List ℕ) : ℕ :=
  (List.zipWith (· - ·) as cs).sum

-- Hands out `spare` to the members in order, as far as their caps allow.
def refill (spare : ℕ) : List ℕ → List ℕ → List ℕ
  | a :: as, c :: cs => (a + min (c - a) spare) :: refill (spare - min (c - a) spare) as cs
  | as,      _       => as

def capped (as cs : List ℕ) : List ℕ :=
  refill (excess as cs) (List.zipWith min as cs) cs

theorem zipWith_min_sum_add_excess (h : as.length = cs.length) :
    (List.zipWith min as cs).sum + excess as cs = as.sum := by
  induction as generalizing cs
  case nil => simp [excess]
  case cons a as ih =>
    cases cs
    case nil => simp at h
    case cons c cs =>
      have ih := ih (Nat.succ.inj h)
      simp only [excess, List.zipWith_cons_cons, List.sum_cons] at ih ⊢
      omega

@[simp]
theorem refill_length : (refill spare as cs).length = as.length := by
  induction as generalizing spare cs
  case nil => cases cs <;> simp [refill]
  case cons a as ih => cases cs <;> simp [refill, ih]

-- What is handed out is all of `spare`, or as much as the members have room for.
theorem refill_sum (h : as.length = cs.length) (hc : List.Forall₂ (· ≤ ·) as cs) :
    (refill spare as cs).sum = min (as.sum + spare) cs.sum := by
  induction hc generalizing spare
  case nil => simp [refill]
  case cons a c as cs hac hc ih =>
    have hle := hc.sum_le_sum
    simp only [refill, List.sum_cons, ih (Nat.succ.inj h)]
    omega

theorem refill_le (hc : List.Forall₂ (· ≤ ·) as cs) :
    List.Forall₂ (· ≤ ·) (refill spare as cs) cs := by
  induction hc generalizing spare
  case nil => exact .nil
  case cons a c as cs hac hc ih => exact .cons (by omega) ih

theorem le_refill (spare : ℕ) (as cs : List ℕ) : List.Forall₂ (· ≤ ·) as (refill spare as cs) := by
  induction as generalizing spare cs
  case nil => cases cs <;> exact .nil
  case cons a as ih =>
    cases cs
    case nil => exact List.forall₂_same.mpr fun _ _ => le_rfl
    case cons c cs => exact .cons (Nat.le_add_right _ _) (ih _ _)

theorem refill_zero : refill 0 as cs = as := by
  induction as generalizing cs
  case nil => cases cs <;> rfl
  case cons a as ih => cases cs <;> simp [refill, ih]

theorem zipWith_min_le (h : as.length = cs.length) :
    List.Forall₂ (· ≤ ·) (List.zipWith min as cs) cs := by
  induction as generalizing cs
  case nil => cases cs; exact .nil; simp at h
  case cons a as ih =>
    cases cs
    case nil => simp at h
    case cons c cs => exact .cons (min_le_right _ _) (ih (Nat.succ.inj h))

theorem capped_sum (h : as.length = cs.length) : (capped as cs).sum = min as.sum cs.sum := by
  rw [capped, refill_sum (by simp [h]) (zipWith_min_le h), zipWith_min_sum_add_excess h]

theorem capped_le (h : as.length = cs.length) : List.Forall₂ (· ≤ ·) (capped as cs) cs :=
  refill_le (zipWith_min_le h)

-- Caps that do not bind change nothing.
theorem capped_of_le (hc : List.Forall₂ (· ≤ ·) as cs) : capped as cs = as := by
  have hl := hc.length_eq
  have hm : List.zipWith min as cs = as := by
    induction hc
    case nil => rfl
    case cons hac hc ih => simp [min_eq_left hac, ih hc.length_eq]
  have he := zipWith_min_sum_add_excess hl
  rw [hm] at he
  rw [capped, hm, show excess as cs = 0 by omega, refill_zero]

theorem capped_pos (ha : ∀ a ∈ as, 1 ≤ a) (hc : ∀ c ∈ cs, 1 ≤ c) : ∀ x ∈ capped as cs, 1 ≤ x := by
  intro x hx
  obtain ⟨i, hi, rfl⟩ := List.getElem_of_mem hx
  have hle := le_refill (excess as cs) (List.zipWith min as cs) cs
  have hi' : i < (List.zipWith min as cs).length := by simpa [capped] using hi
  refine le_trans ?_ (List.Forall₂.get hle hi' hi)
  have hl : i < as.length ∧ i < cs.length := by simpa using hi'
  simp only [List.get_eq_getElem, List.getElem_zipWith]
  exact le_min (ha _ (List.getElem_mem hl.left)) (hc _ (List.getElem_mem hl.right))

end Capped

section LargestRemainder

-- One more unit for every index of the list.
def bump (is : List ℕ) (l : List ℕ) : List ℕ :=
  is.foldl (fun l i => l.modify i (· + 1)) l

def quotas (total : ℕ) (ws : List ℕ) : List ℕ :=
  ws.map (total * · / ws.sum)

def remainders (total : ℕ) (ws : List ℕ) : List ℕ :=
  ws.map (total * · % ws.sum)

-- The larger remainder goes first, and of equal ones the smaller index.
def ranksBefore (a b : ℕ × ℕ) : Bool :=
  b.1 < a.1 || (a.1 == b.1 && a.2 ≤ b.2)

def ranking (rems : List ℕ) : List (ℕ × ℕ) :=
  rems.zipIdx.insertionSort fun a b => ranksBefore a b

-- The indices that receive one unit more than their quota.
def winners (total : ℕ) (ws : List ℕ) : List ℕ :=
  ((ranking (remainders total ws)).take (total - (quotas total ws).sum)).map Prod.snd

def largestRemainder (total : ℕ) (ws : List ℕ) : List ℕ :=
  bump (winners total ws) (quotas total ws)

variable {is l ws rems : List ℕ} {total s k i : ℕ}

@[simp]
theorem bump_nil : bump [] l = l :=
  rfl

@[simp]
theorem bump_cons : bump (i :: is) l = bump is (l.modify i (· + 1)) :=
  rfl

@[simp]
theorem bump_length : (bump is l).length = l.length := by
  induction is generalizing l <;> simp_all

theorem sum_modify_succ (h : i < l.length) : (l.modify i (· + 1)).sum = l.sum + 1 := by
  induction l generalizing i
  case nil => simp at h
  case cons a l ih =>
    cases i
    case zero => simp; omega
    case succ i =>
      have ih := ih (by simpa using h)
      simp only [List.modify_succ_cons, List.sum_cons, ih]
      omega

theorem bump_sum (h : ∀ i ∈ is, i < l.length) : (bump is l).sum = l.sum + is.length := by
  induction is generalizing l
  case nil => simp
  case cons i is ih =>
    have hs := sum_modify_succ (h i (by simp))
    rw [bump_cons, ih (by simpa using fun j hj => h j (by simp [hj])), hs, List.length_cons]
    omega

-- The indices are bumped once each, so a share grows by at most one.
theorem bump_getElem? (hn : is.Nodup) :
    (bump is l)[i]? = l[i]?.map (· + if i ∈ is then 1 else 0) := by
  induction is generalizing l
  case nil => simp
  case cons j is ih =>
    obtain ⟨hj, hn⟩ := List.nodup_cons.mp hn
    rw [bump_cons, ih hn, List.getElem?_modify]
    by_cases he : j = i
    case pos => subst he; simp [hj, Function.comp_def]
    case neg => simp [he, Ne.symm he]

instance : Std.Total fun a b => ranksBefore a b = true where
  total a b := by simp only [ranksBefore, Bool.or_eq_true, decide_eq_true_eq]; grind

instance : IsTrans (ℕ × ℕ) fun a b => ranksBefore a b = true where
  trans a b c := by simp only [ranksBefore, Bool.or_eq_true, decide_eq_true_eq]; grind

theorem ranking_perm (rems : List ℕ) : (ranking rems).Perm rems.zipIdx :=
  List.perm_insertionSort ..

@[simp]
theorem ranking_length : (ranking rems).length = rems.length := by
  simpa using (ranking_perm rems).length_eq

theorem ranking_sorted (rems : List ℕ) : (ranking rems).Pairwise (ranksBefore · ·) :=
  List.pairwise_insertionSort ..

theorem ranking_map_fst_sum (rems : List ℕ) : ((ranking rems).map Prod.fst).sum = rems.sum := by
  simpa using ((ranking_perm rems).map Prod.fst).sum_eq

theorem ranking_map_snd_perm (rems : List ℕ) :
    ((ranking rems).map Prod.snd).Perm (List.range rems.length) := by
  simpa [List.range_eq_range'] using (ranking_perm rems).map Prod.snd

theorem mem_ranking {p : ℕ × ℕ} : p ∈ ranking rems ↔ rems[p.2]? = some p.1 := by
  rw [(ranking_perm rems).mem_iff, List.mem_zipIdx_iff_getElem?]

theorem quotas_sum_add_remainders_sum (total s : ℕ) (ws : List ℕ) :
    s * (ws.map (total * · / s)).sum + (ws.map (total * · % s)).sum = total * ws.sum := by
  induction ws
  case nil => simp
  case cons w ws ih =>
    have hd := Nat.div_add_mod (total * w) s
    simp only [List.map_cons, List.sum_cons, Nat.mul_add]
    omega

-- What the quotas leave over is worth the sum of the remainders.
theorem remainders_sum (total : ℕ) (ws : List ℕ) :
    (remainders total ws).sum = (total - (quotas total ws).sum) * ws.sum := by
  have hq := quotas_sum_add_remainders_sum total ws.sum ws
  rw [Nat.sub_mul, Nat.mul_comm (quotas total ws).sum]
  simp only [quotas, remainders] at hq ⊢
  omega

theorem quotas_sum_le (total : ℕ) (h : 0 < ws.sum) : (quotas total ws).sum ≤ total := by
  have hq := quotas_sum_add_remainders_sum total ws.sum ws
  refine Nat.le_of_mul_le_mul_left ?_ h
  rw [Nat.mul_comm ws.sum total, quotas]
  omega

theorem mem_remainders_lt (h : 0 < ws.sum) : ∀ r ∈ remainders total ws, r < ws.sum := by
  intro r hr
  obtain ⟨w, -, rfl⟩ := List.mem_map.mp hr
  exact Nat.mod_lt _ h

-- The leading entries of a descending list are positive as long as `s` of them each, together, do
-- not exceed the sum of all entries, each of which is below `s`.
theorem take_pos (hs : l.Pairwise (· ≥ ·)) (hl : ∀ r ∈ l, r < s) (hk : k * s ≤ l.sum) :
    ∀ r ∈ l.take k, 0 < r := by
  induction l generalizing k
  case nil => simp
  case cons a l ih =>
    obtain ⟨ha, hs⟩ := List.pairwise_cons.mp hs
    cases k
    case zero => simp
    case succ k =>
      have has := hl a (by simp)
      rw [List.sum_cons, Nat.succ_mul] at hk
      intro r hr
      rw [List.take_succ_cons, List.mem_cons] at hr
      cases hr
      case inr hr => exact ih hs (fun r hr => hl r (by simp [hr])) (by omega) r hr
      case inl hr =>
        subst hr
        by_contra h0
        have hz : l.sum = 0 := List.sum_eq_zero fun x hx => by have := ha x hx; omega
        omega

theorem le_length_of_mul_le_sum (hs : 0 < s) (hl : ∀ r ∈ l, r < s) (hk : k * s ≤ l.sum) :
    k ≤ l.length := by
  have hle : l.sum ≤ l.length * s := by
    simpa using List.sum_le_card_nsmul l s fun r hr => (hl r hr).le
  exact Nat.le_of_mul_le_mul_right (hk.trans hle) hs

theorem winners_sublist (total : ℕ) (ws : List ℕ) :
    (winners total ws).Sublist ((ranking (remainders total ws)).map Prod.snd) :=
  (List.take_sublist _ _).map _

theorem winners_nodup (total : ℕ) (ws : List ℕ) : (winners total ws).Nodup :=
  (winners_sublist total ws).nodup ((ranking_map_snd_perm _).nodup_iff.mpr List.nodup_range)

theorem winners_lt : ∀ i ∈ winners total ws, i < ws.length := by
  intro i hi
  have hm := (ranking_map_snd_perm _).mem_iff.mp ((winners_sublist total ws).mem hi)
  simpa [remainders] using hm

theorem winners_length (h : 0 < ws.sum) :
    (winners total ws).length = total - (quotas total ws).sum := by
  have hk := le_length_of_mul_le_sum h (mem_remainders_lt h) (remainders_sum total ws).ge
  simpa [winners] using hk

-- A winner's quota was rounded down.
theorem winners_remainder_pos (h : 0 < ws.sum) (hi : i ∈ winners total ws) (hl : i < ws.length) :
    0 < total * ws[i] % ws.sum := by
  obtain ⟨p, hp, rfl⟩ := List.mem_map.mp hi
  have hsorted : ((ranking (remainders total ws)).map Prod.fst).Pairwise (· ≥ ·) := by
    refine List.pairwise_map.mpr ((ranking_sorted _).imp fun hab => ?_)
    simp only [ranksBefore, Bool.or_eq_true, decide_eq_true_eq, Bool.and_eq_true, beq_iff_eq] at hab
    omega
  have hlt : ∀ r ∈ (ranking (remainders total ws)).map Prod.fst, r < ws.sum := by
    intro r hr
    obtain ⟨q, hq, rfl⟩ := List.mem_map.mp hr
    exact mem_remainders_lt h _ (List.mem_of_getElem? (mem_ranking.1 hq))
  have hpos := take_pos hsorted hlt
    ((ranking_map_fst_sum _).trans (remainders_sum total ws)).ge p.1
    (by rw [← List.map_take]; exact List.mem_map_of_mem hp)
  have hget := mem_ranking.1 (List.mem_of_mem_take hp)
  simp only [remainders, List.getElem?_map, List.getElem?_eq_getElem hl, Option.map_some,
    Option.some.injEq] at hget
  omega

-- Whoever ranks before a winner wins as well.
theorem winners_closed {j : ℕ} (hj : j ∈ winners total ws) {a b : ℕ}
    (ha : (remainders total ws)[i]? = some a) (hb : (remainders total ws)[j]? = some b)
    (h : ranksBefore (a, i) (b, j)) : i ∈ winners total ws := by
  obtain ⟨p, hp, rfl⟩ := List.mem_map.mp hj
  have hb' := mem_ranking.1 (List.mem_of_mem_take hp)
  have hpb : p = (b, p.2) := Prod.ext (Option.some.inj (hb'.symm.trans hb)) rfl
  have hm : (a, i) ∈ ranking (remainders total ws) := mem_ranking.2 ha
  have hs := ranking_sorted (remainders total ws)
  rw [← List.take_append_drop (total - (quotas total ws).sum) (ranking _)] at hm hs
  cases List.mem_append.mp hm
  case inl hm => exact List.mem_map_of_mem (f := Prod.snd) hm
  case inr hm =>
    -- The ranking puts the winner first as well, so the two are the same.
    have hle := (List.pairwise_append.mp hs).right.right p hp _ hm
    rw [hpb] at hle
    simp only [ranksBefore, Bool.or_eq_true, decide_eq_true_eq, Bool.and_eq_true, beq_iff_eq]
      at h hle
    have he : p.2 = i := by omega
    exact he ▸ hj

@[simp]
theorem largestRemainder_length : (largestRemainder total ws).length = ws.length := by
  simp [largestRemainder, quotas]

theorem largestRemainder_sum (h : 0 < ws.sum) : (largestRemainder total ws).sum = total := by
  have hw : ∀ i ∈ winners total ws, i < (quotas total ws).length := by
    simpa [quotas] using fun i => winners_lt i
  have hb := bump_sum hw
  have hq := quotas_sum_le total h
  rw [winners_length h] at hb
  rw [largestRemainder, hb]
  omega

-- One unit for each member to start with, and the rest in proportion.
theorem largestRemainder_succ_sum (h : 0 < ws.sum) (hn : ws.length ≤ total) :
    ((largestRemainder (total - ws.length) ws).map (· + 1)).sum = total := by
  rw [List.sum_map_add]
  simp only [List.map_id', largestRemainder_sum h, List.map_const', List.sum_replicate,
    largestRemainder_length, smul_eq_mul, Nat.mul_one]
  omega

theorem largestRemainder_getElem? (total : ℕ) (ws : List ℕ) (i : ℕ) :
    (largestRemainder total ws)[i]? =
      ws[i]?.map (total * · / ws.sum + if i ∈ winners total ws then 1 else 0) := by
  rw [largestRemainder, bump_getElem? (winners_nodup total ws), quotas, List.getElem?_map,
    Option.map_map]
  rfl

-- A share is at most its quota rounded up.
theorem largestRemainder_mul_lt (total : ℕ) (h : 0 < ws.sum) :
    List.Forall₂ (fun x w => x * ws.sum < total * w + ws.sum) (largestRemainder total ws) ws := by
  refine List.forall₂_iff_get.mpr ⟨largestRemainder_length, fun i hi hi' => ?_⟩
  have hd := Nat.div_add_mod (total * ws[i]) ws.sum
  have hg := largestRemainder_getElem? total ws i
  simp only [List.getElem?_eq_getElem hi, List.getElem?_eq_getElem hi', Option.map_some,
    Option.some.injEq] at hg
  simp only [List.get_eq_getElem, hg]
  split
  case isTrue hw =>
    have hr := winners_remainder_pos h hw hi'
    rw [Nat.add_mul, Nat.mul_comm, Nat.one_mul]
    omega
  case isFalse hw =>
    have hr := Nat.mod_lt (total * ws[i]) h
    rw [Nat.add_zero, Nat.mul_comm]
    omega

-- A share is its quota, rounded down or up.
theorem largestRemainder_rounds (total : ℕ) (h : 0 < ws.sum) :
    List.Forall₂ (fun x w => x = total * w / ws.sum ∨ x = (total * w) ⌈/⌉ ws.sum)
      (largestRemainder total ws) ws := by
  refine List.forall₂_iff_get.mpr ⟨largestRemainder_length, fun i hi hi' => ?_⟩
  have hg := largestRemainder_getElem? total ws i
  simp only [List.getElem?_eq_getElem hi, List.getElem?_eq_getElem hi', Option.map_some,
    Option.some.injEq] at hg
  simp only [List.get_eq_getElem, hg]
  split
  case isTrue hw =>
    have hr := winners_remainder_pos h hw hi'
    have hd := Nat.div_add_mod (total * ws[i]) ws.sum
    have hlt := Nat.mod_lt (total * ws[i]) h
    refine .inr ?_
    rw [Nat.ceilDiv_eq_add_pred_div]
    refine (Nat.div_eq_of_lt_le ?_ ?_).symm <;>
      simp only [Nat.add_mul, Nat.mul_comm (total * ws[i] / ws.sum)] <;> omega
  case isFalse hw => exact .inl (Nat.add_zero _)

theorem largestRemainder_zero_weight (hw : ws[i]? = some 0) (h : 0 < ws.sum) :
    (largestRemainder total ws)[i]? = some 0 := by
  obtain ⟨hi, h0⟩ := List.getElem?_eq_some_iff.mp hw
  have hn : i ∉ winners total ws := fun hm => by
    have hr := winners_remainder_pos h hm hi
    simp [h0] at hr
  simp [largestRemainder_getElem?, hw, hn]

-- The shares are ordered as the weights are, and those of equal weights as their indices are.
theorem largestRemainder_mono {j x y v w : ℕ} (h0 : 0 < ws.sum)
    (hx : (largestRemainder total ws)[i]? = some x)
    (hy : (largestRemainder total ws)[j]? = some y)
    (hv : ws[i]? = some v) (hw : ws[j]? = some w) (h : w < v ∨ w = v ∧ i < j) : y ≤ x := by
  have hle : total * w ≤ total * v := Nat.mul_le_mul_left _ (by omega)
  have hq : total * w / ws.sum ≤ total * v / ws.sum := Nat.div_le_div_right hle
  simp only [largestRemainder_getElem?, hv, hw, Option.map_some, Option.some.injEq] at hx hy
  subst hx hy
  by_cases hj : j ∈ winners total ws
  case neg => rw [if_neg hj]; omega
  case pos =>
    rw [if_pos hj]
    cases Nat.lt_or_eq_of_le hq
    case inl hlt => omega
    case inr he =>
      have hdv := Nat.div_add_mod (total * v) ws.sum
      have hdw := Nat.div_add_mod (total * w) ws.sum
      rw [he] at hdw
      -- A winner has a remainder, so the total is positive and keeps the order of the weights.
      obtain ⟨hl, hwl⟩ := List.getElem?_eq_some_iff.mp hw
      have hr := winners_remainder_pos h0 hj hl
      rw [hwl] at hr
      have ht : 0 < total := Nat.pos_of_ne_zero fun ht => by simp [ht] at hr
      have hlt : w < v → total * w < total * v := fun h =>
        Nat.mul_lt_mul_of_pos_left h ht
      have hi : i ∈ winners total ws := by
        refine winners_closed (a := total * v % ws.sum) (b := total * w % ws.sum) hj
          (by simp [remainders, hv]) (by simp [remainders, hw]) ?_
        simp only [ranksBefore, Bool.or_eq_true, decide_eq_true_eq, Bool.and_eq_true, beq_iff_eq]
        cases h
        case inl h =>
          have hlt := hlt h
          exact .inl (by omega)
        case inr h =>
          rw [h.left]
          exact .inr ⟨rfl, h.right.le⟩
      rw [if_pos hi, he]

-- Equal remainders are ranked by their indices.
theorem ranking_replicate (n r : ℕ) :
    ranking (List.replicate n r) = (List.replicate n r).zipIdx := by
  refine List.Pairwise.insertionSort_eq ?_
  rw [List.pairwise_iff_getElem]
  intro i j hi hj hlt
  simp [ranksBefore, hlt.le]

theorem winners_replicate {n w : ℕ} (hw : 0 < w) (hn : 0 < n) :
    winners total (List.replicate n w) = List.range (total % n) := by
  have hlt := Nat.mod_lt total hn
  have hd := Nat.div_add_mod total n
  have hq : (quotas total (List.replicate n w)).sum = n * (total / n) := by
    simp [quotas, Nat.mul_div_mul_right _ _ hw]
  simp only [winners, hq, remainders, List.map_replicate, ranking_replicate]
  rw [List.map_take, List.zipIdx_map_snd, List.length_replicate, ← List.range_eq_range',
    List.take_range]
  exact congrArg List.range (by omega)

-- Equal weights divide the total evenly.
theorem largestRemainder_replicate {n w : ℕ} (hw : 0 < w) :
    largestRemainder total (List.replicate n w) = evenShares total n := by
  refine List.ext_getElem? fun i => ?_
  rw [largestRemainder_getElem?]
  cases Nat.lt_or_ge i n
  case inr hi => simp [evenShares, hi]
  case inl hi =>
    simp [evenShares, evenShare, hi, winners_replicate hw (Nat.zero_lt_of_lt hi),
      Nat.mul_div_mul_right _ _ hw]

-- The first of the largest entries.
theorem exists_first_max (h : l ≠ []) : ∃ i v : ℕ, l[i]? = some v ∧
    ∀ j w : ℕ, l[j]? = some w → j = i ∨ w < v ∨ w = v ∧ i < j := by
  induction l
  case nil => exact absurd rfl h
  case cons a l ih =>
    by_cases hl : l = []
    case pos =>
      refine ⟨0, a, rfl, fun j w hj => .inl ?_⟩
      have hlt := (List.getElem?_eq_some_iff.mp hj).choose
      simp only [hl, List.length_singleton] at hlt
      omega
    case neg =>
      obtain ⟨i, v, hi, hmax⟩ := ih hl
      by_cases hv : v ≤ a
      case pos =>
        refine ⟨0, a, rfl, fun j w hj => ?_⟩
        cases j
        case zero => exact .inl rfl
        case succ j =>
          have hm := hmax j w (by simpa using hj)
          have hw : w ≤ v := by
            cases hm
            case inl he =>
              rw [he, List.getElem?_cons_succ, hi] at hj
              exact (Option.some.inj hj).ge
            case inr hm => omega
          omega
      case neg =>
        refine ⟨i + 1, v, by simpa using hi, fun j w hj => ?_⟩
        cases j
        case zero =>
          simp only [List.getElem?_cons_zero, Option.some.injEq] at hj
          omega
        case succ j =>
          have hm := hmax j w (by simpa using hj)
          omega

-- Some member has the largest share of every total.
theorem exists_largest_share (h : 0 < ws.sum) : ∃ i < ws.length, ∀ total j x y : ℕ,
    (largestRemainder total ws)[i]? = some x → (largestRemainder total ws)[j]? = some y → y ≤ x := by
  have hne : ws ≠ [] := fun he => by simp [he] at h
  obtain ⟨i, v, hi, hmax⟩ := exists_first_max hne
  refine ⟨i, (List.getElem?_eq_some_iff.mp hi).choose, fun total j x y hx hy => ?_⟩
  have hj := (List.getElem?_eq_some_iff.mp hy).choose
  rw [largestRemainder_length] at hj
  have hw := List.getElem?_eq_getElem hj
  cases hmax j _ hw
  case inl he =>
    rw [he, hx] at hy
    exact (Option.some.inj hy).ge
  case inr hm => exact largestRemainder_mono h hx hy hi hw hm

theorem largestRemainder_le (h : 0 < ws.sum) (ht : total ≤ ws.sum) :
    List.Forall₂ (· ≤ ·) (largestRemainder total ws) ws := by
  refine (largestRemainder_mul_lt total h).imp fun x w hlt => ?_
  have hle := Nat.mul_le_mul_right w ht
  refine Nat.le_of_lt_succ (Nat.lt_of_mul_lt_mul_right (a := ws.sum) ?_)
  rw [Nat.succ_mul, Nat.mul_comm w]
  omega

end LargestRemainder

end Apportionment
