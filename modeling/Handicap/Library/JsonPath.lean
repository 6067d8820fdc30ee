import Mathlib.Algebra.Order.Group.Int
import Mathlib.Data.List.Lattice
import Mathlib.Data.List.Nodup
import Mathlib.Data.List.Perm.Subperm
import Mathlib.Data.List.ProdSigma
import Mathlib.Data.List.Range

-- The queries of RFC 9535 and the nodes that they select.
namespace JsonPath

inductive Tree (α : Type*)
  | leaf (a : α)
  | array (items : List (Tree α))
  | object (members : List (String × Tree α))

-- A node is found by the positions of the children on the way to it.
structure Node (α : Type*) where
  location : List ℕ
  value    : Tree α

namespace Tree

variable {α : Type*} (t : Tree α)

def children : Tree α → List (Tree α)
  | leaf _         => []
  | array items    => items
  | object members => members.map Prod.snd

theorem sizeOf_lt_of_mem_children {t c : Tree α} (h : c ∈ t.children) : sizeOf c < sizeOf t := by
  cases t
  case leaf => simp [children] at h
  case array items =>
    have hlt : sizeOf c < sizeOf items := List.sizeOf_lt_of_mem h
    simp only [array.sizeOf_spec]
    omega
  case object members =>
    obtain ⟨m, hm, rfl⟩ := List.mem_map.mp h
    have hlt := List.sizeOf_lt_of_mem hm
    have hp : sizeOf m.2 < sizeOf m := by
      cases m
      simp only [Prod.mk.sizeOf_spec]
      omega
    simp only [object.sizeOf_spec]
    omega

def node : Tree α → List ℕ → Option (Tree α)
  | t, []     => some t
  | t, i :: l => t.children[i]?.bind fun c => c.node l

-- The tree and what is below it, parents first.
def descendants (t : Tree α) : List (Node α) :=
  ⟨[], t⟩ :: t.children.attach.zipIdx.flatMap fun c =>
    (descendants c.1.val).map fun d => ⟨c.2 :: d.location, d.value⟩
termination_by sizeOf t
decreasing_by exact sizeOf_lt_of_mem_children c.1.property

theorem descendants_eq : t.descendants = ⟨[], t⟩ :: t.children.zipIdx.flatMap fun c =>
    c.1.descendants.map fun d => ⟨c.2 :: d.location, d.value⟩ := by
  have hz : t.children.zipIdx = t.children.attach.zipIdx.map fun c => (c.1.val, c.2) := by
    conv_lhs => rw [← List.attach_map_subtype_val t.children, List.zipIdx_map]
    rfl
  rw [descendants, hz, List.flatMap_map]

theorem mem_descendants {n : Node α} :
    n ∈ t.descendants ↔ t.node n.location = some n.value := by
  obtain ⟨l, v⟩ := n
  induction l generalizing t
  case nil => simp [descendants_eq t, node, eq_comm]
  case cons i l ih =>
    simp only [descendants_eq t, node, List.mem_cons, List.mem_flatMap, List.mem_map, Prod.exists,
      List.mem_zipIdx_iff_getElem?, Node.mk.injEq, List.cons.injEq, Option.bind_eq_some_iff]
    constructor
    case mp =>
      rintro (⟨⟨⟩, -⟩ | ⟨c, j, hc, d, hd, ⟨rfl, rfl⟩, rfl⟩)
      exact ⟨c, hc, (ih c).mp hd⟩
    case mpr =>
      rintro ⟨c, hc, hv⟩
      exact .inr ⟨c, i, hc, ⟨l, v⟩, (ih c).mpr hv, ⟨rfl, rfl⟩, rfl⟩

theorem descendants_nodup : (t.descendants.map Node.location).Nodup := by
  induction t using descendants.induct
  case case1 t ih =>
    simp only [descendants_eq t, List.map_cons, List.map_flatMap, List.map_map]
    refine List.nodup_cons.mpr ⟨by simp, List.nodup_flatMap.mpr ⟨fun c hc => ?_, ?_⟩⟩
    case refine_1 =>
      have hm : c.1 ∈ t.children :=
        List.mem_of_getElem? (List.mem_zipIdx_iff_getElem?.mp hc)
      have hn := (ih (⟨c.1, hm⟩, c.2)).map (List.cons_injective (a := c.2))
      rwa [List.map_map] at hn
    case refine_2 =>
      have hz : (t.children.zipIdx.map Prod.snd).Nodup := by
        rw [List.zipIdx_map_snd]
        exact List.nodup_range'
      refine (List.pairwise_map.mp hz).imp fun hne l hl hl' => hne ?_
      obtain ⟨_, -, rfl⟩ := List.mem_map.mp hl
      obtain ⟨_, -, he⟩ := List.mem_map.mp hl'
      exact (List.cons.inj he).left.symm

end Tree

-- The bounds of a slice may be left out, and negative ones count from the end.
structure Slice where
  start : Option ℤ
  stop  : Option ℤ
  step  : Option ℤ

def normalize (i : ℤ) (length : ℕ) : ℤ :=
  if 0 ≤ i then i else length + i

namespace Slice

variable (s : Slice)

def positions (length : ℕ) : List ℕ :=
  let step := s.step.getD 1
  let start := normalize (s.start.getD (if 0 ≤ step then 0 else length - 1)) length
  let stop := normalize (s.stop.getD (if 0 ≤ step then length else -length - 1)) length
  if step = 0 then
    []
  else if 0 < step then
    let lower := min (max start 0) length
    let upper := min (max stop 0) length
    (List.range length).filterMap fun (k : ℕ) =>
      if lower + k * step < upper then some (lower + k * step).toNat else none
  else
    let upper := min (max start (-1)) (length - 1)
    let lower := min (max stop (-1)) (length - 1)
    (List.range length).filterMap fun (k : ℕ) =>
      if lower < upper + k * step then some (upper + k * step).toNat else none

theorem positions_nodup (length : ℕ) : (s.positions length).Nodup := by
  -- The multiples of a step that is not zero differ, and none of them is negative here.
  have hf (f : ℕ → ℤ) (p : ℕ → Prop) [DecidablePred p] (hf : Function.Injective f)
      (hp : ∀ k, p k → 0 ≤ f k) :
      ((List.range length).filterMap fun k => if p k then some (f k).toNat else none).Nodup := by
    refine List.Nodup.filterMap (fun k j i hk hj => hf ?_) List.nodup_range
    obtain ⟨hk, hki⟩ := Option.ite_none_right_eq_some.mp hk
    obtain ⟨hj, hji⟩ := Option.ite_none_right_eq_some.mp hj
    have hk := hp k hk
    have hj := hp j hj
    have he : (f k).toNat = (f j).toNat := Option.some.inj (hki.trans hji.symm)
    omega
  have hinj (a : ℤ) (h : s.step.getD 1 ≠ 0) :
      Function.Injective fun (k : ℕ) => a + k * s.step.getD 1 := by
    intro k j he
    exact_mod_cast Int.eq_of_mul_eq_mul_right h (add_left_cancel he)
  unfold positions
  dsimp only
  split
  case isTrue => exact List.nodup_nil
  case isFalse h0 =>
    split
    case isTrue hpos =>
      refine hf _ _ (hinj _ h0) fun k _ => ?_
      have hk : 0 ≤ (k : ℤ) * s.step.getD 1 := Int.mul_nonneg (Int.natCast_nonneg k) hpos.le
      omega
    case isFalse => exact hf _ _ (hinj _ h0) fun k hk => by omega

end Slice

inductive Selector (φ : Type*)
  | name (s : String)
  | wildcard
  | index (i : ℤ)
  | slice (s : Slice)
  | filter (f : φ)

inductive Segment (φ : Type*)
  | child (selectors : List (Selector φ))
  | descendant (selectors : List (Selector φ))

-- The expressions of filters are left open, with what they hold of below a root.
section

variable {α φ : Type*} (holds : φ → Tree α → Tree α → Bool) (root : Tree α)

namespace Selector

def positions : Selector φ → Tree α → List ℕ
  | name s, .object members => (members.findIdx? (·.1 = s)).toList
  | name _, _               => []
  | wildcard, t             => List.range t.children.length
  | index i, .array items   =>
    let k := normalize i items.length
    if 0 ≤ k ∧ k < items.length then [k.toNat] else []
  | index _, _              => []
  | slice s, .array items   => s.positions items.length
  | slice _, _              => []
  | filter f, t             => (List.range t.children.length).filter fun k =>
    (t.children[k]?.map (holds f root)).getD false

def select (s : Selector φ) (n : Node α) : List (Node α) :=
  (s.positions holds root n.value).filterMap fun i =>
    n.value.children[i]?.map fun c => ⟨n.location ++ [i], c⟩

theorem positions_nodup (s : Selector φ) (t : Tree α) : (s.positions holds root t).Nodup := by
  unfold positions
  split
  case h_1 => exact Option.toList_nodup _
  case h_3 => exact List.nodup_range
  case h_4 =>
    dsimp only
    split <;> simp
  case h_6 => exact Slice.positions_nodup ..
  case h_8 => exact List.nodup_range.filter _
  all_goals exact List.nodup_nil

end Selector

namespace Segment

def selectors : Segment φ → List (Selector φ)
  | child selectors      => selectors
  | descendant selectors => selectors

def descends : Segment φ → Bool
  | child _      => false
  | descendant _ => true

-- The nodes that a segment selects from.
def visited : Segment φ → Node α → List (Node α)
  | child _, n      => [n]
  | descendant _, n => n.value.descendants.map fun d => ⟨n.location ++ d.location, d.value⟩

def apply (s : Segment φ) (nodes : List (Node α)) : List (Node α) :=
  (nodes.flatMap s.visited).flatMap fun n => s.selectors.flatMap fun sel =>
    sel.select holds root n

end Segment

def nodelist (query : List (Segment φ)) : List (Node α) :=
  query.foldl (fun nodes s => s.apply holds root nodes) [⟨[], root⟩]

def Selector.integers : Selector φ → List ℤ
  | .index i             => [i]
  | .slice ⟨a, b, step⟩ => a.toList ++ b.toList ++ step.toList
  | _                    => []

-- The integers of a query are within the numbers that are exact everywhere.
def Valid (query : List (Segment φ)) : Prop :=
  ∀ s ∈ query, ∀ sel ∈ s.selectors, ∀ i ∈ sel.integers, i.natAbs < 9007199254740992

variable {holds root} {nodes : List (Node α)} {n m : Node α} {s : Segment φ} {d : ℕ}

theorem Segment.apply_single {sel : Selector φ} :
    (child [sel]).apply holds root [n] = sel.select holds root n := by
  simp [apply, visited, selectors]

theorem Selector.mem_select {sel : Selector φ} (h : m ∈ sel.select holds root n) :
    ∃ i, m.location = n.location ++ [i] ∧ n.value.children[i]? = some m.value := by
  obtain ⟨i, -, hm⟩ := List.mem_filterMap.mp h
  obtain ⟨c, hc, rfl⟩ := Option.map_eq_some_iff.mp hm
  exact ⟨i, rfl, hc⟩

theorem Selector.select_nodup (sel : Selector φ) :
    ((sel.select holds root n).map Node.location).Nodup := by
  rw [select, List.map_filterMap]
  refine (sel.positions_nodup holds root n.value).filterMap fun i j l hi hj => ?_
  have hl {i : ℕ} (h : l ∈ ((n.value.children[i]?.map fun c =>
      (⟨n.location ++ [i], c⟩ : Node α)).map Node.location)) : l = n.location ++ [i] := by
    obtain ⟨m, hm, rfl⟩ := Option.map_eq_some_iff.mp h
    obtain ⟨c, -, rfl⟩ := Option.map_eq_some_iff.mp hm
    rfl
  have he := (hl hi).symm.trans (hl hj)
  exact (List.cons.inj (List.append_cancel_left he)).left

-- Nodes that are where they say.
def Within (root : Tree α) (nodes : List (Node α)) : Prop :=
  ∀ n ∈ nodes, root.node n.location = some n.value

def Distinct (nodes : List (Node α)) : Prop :=
  (nodes.map Node.location).Nodup

theorem Tree.node_append (t : Tree α) (l m : List ℕ) :
    t.node (l ++ m) = (t.node l).bind fun c => c.node m := by
  induction l generalizing t
  case nil => rfl
  case cons i l ih =>
    rw [List.cons_append, node, node, Option.bind_assoc]
    exact congrArg _ (funext fun c => ih c)

theorem Segment.mem_visited (h : m ∈ s.visited n) :
    ∃ l, m.location = n.location ++ l ∧ n.value.node l = some m.value := by
  cases s
  case child =>
    obtain rfl := List.mem_singleton.mp h
    exact ⟨[], (List.append_nil _).symm, rfl⟩
  case descendant =>
    obtain ⟨d, hd, rfl⟩ := List.mem_map.mp h
    exact ⟨d.location, rfl, (n.value.mem_descendants).mp hd⟩

theorem Segment.apply_within (h : Within root nodes) : Within root (s.apply holds root nodes) := by
  intro m hm
  obtain ⟨v, hv, hm⟩ := List.mem_flatMap.mp hm
  obtain ⟨n, hn, hv⟩ := List.mem_flatMap.mp hv
  obtain ⟨sel, -, hm⟩ := List.mem_flatMap.mp hm
  obtain ⟨l, hl, hv⟩ := mem_visited hv
  obtain ⟨i, hi, hc⟩ := Selector.mem_select hm
  rw [hi, hl, Tree.node_append, Tree.node_append, h n hn, Option.bind_some, hv, Option.bind_some,
    Tree.node, hc]
  rfl

-- The lists of nodes that are found from distinct nodes have nothing in common if the location of
-- a found node tells where it was found from.
theorem Distinct.flatMap {f : Node α → List (Node α)} (h : Distinct nodes)
    (hf : ∀ n ∈ nodes, Distinct (f n)) (hd : ∀ n ∈ nodes, ∀ m ∈ nodes, ∀ v ∈ f n, ∀ w ∈ f m,
      v.location = w.location → n.location = m.location) : Distinct (nodes.flatMap f) := by
  rw [Distinct, List.map_flatMap]
  refine List.nodup_flatMap.mpr ⟨hf, ?_⟩
  refine (List.pairwise_map.mp h).imp_of_mem fun hn hm hne l hl hl' => hne ?_
  obtain ⟨v, hv, rfl⟩ := List.mem_map.mp hl
  obtain ⟨w, hw, he⟩ := List.mem_map.mp hl'
  exact hd _ hn _ hm v hv w hw he.symm

theorem Segment.visited_distinct : Distinct (s.visited n) := by
  cases s
  case child => simp [visited, Distinct]
  case descendant =>
    have hn := n.value.descendants_nodup.map (List.append_right_injective n.location)
    rw [List.map_map] at hn
    rwa [visited, Distinct, List.map_map]

-- A segment with one selector takes distinct nodes to distinct nodes. One that descends starts from
-- nodes that are not below each other.
theorem Segment.apply_distinct {sel : Selector φ} (hs : s.selectors = [sel])
    (h : Distinct nodes) (hd : s.descends → ∀ n ∈ nodes, n.location.length = d) :
    Distinct (s.apply holds root nodes) := by
  have hv : Distinct (nodes.flatMap s.visited) := by
    refine h.flatMap (fun n _ => visited_distinct) fun n hn m hm v hv w hw he => ?_
    cases s
    case child =>
      rw [List.mem_singleton.mp hv, List.mem_singleton.mp hw] at he
      exact he
    case descendant =>
      obtain ⟨_, hl, -⟩ := mem_visited hv
      obtain ⟨_, hl', -⟩ := mem_visited hw
      rw [hl, hl'] at he
      exact (List.append_inj he ((hd rfl n hn).trans (hd rfl m hm).symm)).left
  have ha : s.apply holds root nodes =
      (nodes.flatMap s.visited).flatMap fun n => sel.select holds root n := by
    rw [apply, hs]
    simp only [List.flatMap_singleton]
  rw [ha]
  refine hv.flatMap (fun n _ => sel.select_nodup) fun n _ m _ v hv w hw he => ?_
  obtain ⟨i, hi, -⟩ := Selector.mem_select hv
  obtain ⟨j, hj, -⟩ := Selector.mem_select hw
  rw [hi, hj] at he
  exact (List.append_inj' he rfl).left

theorem Segment.apply_length (hs : s.descends = false)
    (h : ∀ n ∈ nodes, n.location.length = d) :
    ∀ m ∈ s.apply holds root nodes, m.location.length = d + 1 := by
  intro m hm
  obtain ⟨v, hv, hm⟩ := List.mem_flatMap.mp hm
  obtain ⟨n, hn, hv⟩ := List.mem_flatMap.mp hv
  obtain ⟨sel, -, hm⟩ := List.mem_flatMap.mp hm
  obtain ⟨i, hi, -⟩ := Selector.mem_select hm
  cases s
  case child =>
    rw [hi, List.mem_singleton.mp hv, List.length_append, h n hn]
    rfl
  case descendant => simp [descends] at hs

variable {query : List (Segment φ)}

-- Every segment has one selector.
def Single (query : List (Segment φ)) : Prop :=
  ∀ s ∈ query, ∃ sel, s.selectors = [sel]

theorem foldl_distinct (hq : Single query) (hd : ∀ s ∈ query, s.descends = false)
    (h : Distinct nodes) : Distinct (query.foldl (fun nodes s => s.apply holds root nodes) nodes) := by
  induction query generalizing nodes
  case nil => exact h
  case cons s query ih =>
    obtain ⟨⟨sel, hs⟩, hq⟩ := List.forall_mem_cons.mp hq
    obtain ⟨hsd, hd⟩ := List.forall_mem_cons.mp hd
    exact ih hq hd (Segment.apply_distinct (d := 0) hs h (by simp [hsd]))

theorem foldl_distinct_of_length (hq : Single query) (hd : query.countP Segment.descends ≤ 1)
    (h : Distinct nodes) (hl : ∀ n ∈ nodes, n.location.length = d) :
    Distinct (query.foldl (fun nodes s => s.apply holds root nodes) nodes) := by
  induction query generalizing nodes d
  case nil => exact h
  case cons s query ih =>
    obtain ⟨⟨sel, hs⟩, hq⟩ := List.forall_mem_cons.mp hq
    have ha : Distinct (s.apply holds root nodes) := Segment.apply_distinct hs h fun _ => hl
    rw [List.countP_cons] at hd
    rw [List.foldl_cons]
    cases hsd : s.descends
    case false =>
      rw [hsd] at hd
      exact ih hq hd ha (Segment.apply_length hsd hl)
    case true =>
      -- Nothing descends after the segment that does.
      rw [hsd, if_pos rfl] at hd
      have h0 : query.countP Segment.descends = 0 := by omega
      exact foldl_distinct hq (fun s hm => by simpa using List.countP_eq_zero.mp h0 s hm) ha

theorem nodelist_within : Within root (nodelist holds root query) := by
  suffices h : ∀ nodes, Within root nodes →
      Within root (query.foldl (fun nodes s => s.apply holds root nodes) nodes) from
    h _ fun n hn => by rw [List.mem_singleton.mp hn]; rfl
  induction query
  case nil => exact fun _ h => h
  case cons s query ih => exact fun nodes h => ih _ (Segment.apply_within h)

-- With one selector in every segment and at most one segment that descends, no node is selected
-- twice, so that there are no more nodes than the value has.
theorem nodelist_distinct (hq : Single query) (hd : query.countP Segment.descends ≤ 1) :
    Distinct (nodelist holds root query) ∧
      (nodelist holds root query).length ≤ root.descendants.length := by
  have hn : Distinct (nodelist holds root query) :=
    foldl_distinct_of_length (d := 0) hq hd (by simp [Distinct]) (by simp)
  refine ⟨hn, ?_⟩
  have hs : (nodelist holds root query).map Node.location ⊆ root.descendants.map Node.location := by
    refine List.map_subset _ fun n hm => root.mem_descendants.mpr (nodelist_within n hm)
  have hle := (List.Nodup.subperm hn hs).length_le
  rwa [List.length_map, List.length_map] at hle

end

end JsonPath
