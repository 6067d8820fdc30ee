import Handicap.Engine.Theorems.Executor
import Handicap.Ui.Theorems.JsonPath

-- The path to a value is a query that selects it and nothing else.
namespace Ui

open Engine (Json)
open JsonPath (Literal Number Sole SegmentText Segments Query NameChar nodelist)

theorem number_toString (n : ℕ) : Number (toString n).toList n := by
  have hs : (toString n).toList = Nat.toDigits 10 n := by simp
  rw [hs]
  obtain rfl | hn := Nat.eq_zero_or_pos n
  case inl => exact .zero
  case inr =>
    obtain ⟨c, l, he, hc⟩ := Text.toDigits_head hn
    have hd : ∀ d ∈ c :: l, d.isDigit := fun d hd =>
      Nat.isDigit_of_mem_toDigits (by decide) (by decide) (he ▸ hd)
    obtain ⟨hc', hl⟩ := List.forall_mem_cons.mp hd
    have hv := Text.digitsValue_toDigits n
    rw [he] at hv ⊢
    have hp := Number.pos hc' hc hl
    rwa [hv] at hp

theorem hexCode_leftpad {n : ℕ} (hn : n < 0x20) :
    JsonPath.hexCode ((Nat.toDigits 16 n).leftpad 4 '0') = some n := by
  have hall : ∀ n < 0x20, JsonPath.hexCode ((Nat.toDigits 16 n).leftpad 4 '0') = some n := by
    decide +kernel
  exact hall n hn

-- Between its quotation marks, the escaped key denotes the key.
theorem literal_escapeBracketKey (key : List Char) : Literal '\'' (escapeBracketKey key) key := by
  induction key
  case nil => exact .nil
  case cons c key ih =>
    rw [escapeBracketKey, List.flatMap_cons]
    split
    case isTrue hb =>
      subst hb
      exact .escaped (by simp [JsonPath.escapes]) ih
    case isFalse hb =>
      split
      case isTrue hq =>
        subst hq
        exact .quote ih
      case isFalse hq =>
        split
        case isTrue hc =>
          have hl := Literal.code (hexCode_leftpad hc) (.inl (by omega)) ih
          rwa [Char.ofNat_toNat] at hl
        case isFalse hc => exact .unescaped (by omega) hq hb ih

-- What a segment selects.
def childOf {φ : Type*} : PathSegment → JsonPath.Segment φ
  | .key k   => .child [.name k]
  | .index i => .child [.index i]

section

variable {φ : Type*} {spells : List Char → φ → Prop} {segs : List (JsonPath.Segment φ)}
  {query : List (JsonPath.Segment φ)}

theorem childOf_injective : Function.Injective (childOf (φ := φ)) := by
  intro s t h
  cases s <;> cases t <;> simp_all [childOf]

theorem segmentText_cases (spells : List Char → φ → Prop) (s : PathSegment) :
    (∃ l sel, segmentText s = '[' :: l ++ [']'] ∧ Sole spells l sel ∧ childOf s = .child [sel]) ∨
    (∃ k, segmentText s = '.' :: k ∧ JsonPath.Shorthand k ∧
      childOf (φ := φ) s = .child [.name (.ofList k)]) := by
  cases s
  case index i =>
    exact .inl ⟨_, _, rfl, JsonPath.sole_index (number_toString i), rfl⟩
  case key k =>
    rw [segmentText]
    split
    case isTrue h => exact .inr ⟨_, rfl, shorthand_of_identRe h, by simp [childOf]⟩
    case isFalse =>
      have hs : Sole spells _ _ := JsonPath.sole_name (.inl rfl) (literal_escapeBracketKey k.toList)
      exact .inl ⟨_, _, by simp, hs, by simp [childOf]⟩

theorem segmentText_nameChar (segments : List PathSegment) :
    ∀ c ∈ (segments.flatMap segmentText).head?, ¬NameChar c := by
  cases segments
  case nil => simp
  case cons s segments =>
    rw [List.flatMap_cons]
    obtain ⟨l, _, hs, -⟩ | ⟨k, hs, -⟩ := segmentText_cases (fun _ (_ : Empty) => False) s
    all_goals
      rw [hs]
      simp [NameChar, JsonPath.NameFirst]

theorem segments_flatMap (segments : List PathSegment) :
    Segments spells (segments.flatMap segmentText) (segments.map childOf) := by
  induction segments
  case nil => exact .nil
  case cons s segments ih =>
    have hb : JsonPath.Blank [] := List.forall_mem_nil _
    refine Segments.cons (s := []) hb ?_ ih
    show SegmentText spells (segmentText s) (childOf s)
    obtain ⟨l, sel, hs, hl, hc⟩ | ⟨k, hs, hk, hc⟩ := segmentText_cases spells s
    case inl =>
      rw [hs, hc]
      have h := SegmentText.bracketed (.mk (s := []) (t := []) (m := []) hb hb hl.spelled .nil)
      simpa using h
    case inr =>
      rw [hs, hc]
      exact .name hk

theorem segments_unique {segments : List PathSegment}
    (h : Segments spells (segments.flatMap segmentText) segs) : segs = segments.map childOf := by
  induction segments generalizing segs
  case nil =>
    generalize hl : ([] : List PathSegment).flatMap segmentText = l at h
    cases h
    case nil => rfl
    case cons hs hm =>
      obtain ⟨n, rfl | rfl⟩ := hs.cons <;> simp at hl
  case cons s segments ih =>
    rw [List.flatMap_cons] at h
    obtain ⟨l, sel, hs, hl, hc⟩ | ⟨k, hs, hk, hc⟩ := segmentText_cases spells s
    case inl =>
      rw [hs, List.append_assoc] at h
      obtain ⟨segs', rfl, hsegs⟩ := h.unique_bracketed hl
      rw [List.map_cons, hc, ih hsegs]
    case inr =>
      rw [hs] at h
      obtain ⟨segs', rfl, hsegs⟩ := h.unique_name hk (segmentText_nameChar segments)
      rw [List.map_cons, hc, ih hsegs]

theorem query_segmentsToPath (segments : List PathSegment) :
    Query spells (segmentsToPath segments).toList query ↔ query = segments.map childOf := by
  rw [segmentsToPath, String.toList_ofList]
  constructor
  case mp =>
    intro h
    cases h
    case mk h => exact segments_unique h
  case mpr =>
    rintro rfl
    exact .mk (segments_flatMap segments)

theorem segmentsToPath_injective : Function.Injective segmentsToPath := by
  intro s t h
  have hs : Query (fun _ (_ : Empty) => False) (segmentsToPath s).toList (s.map childOf) :=
    (query_segmentsToPath s).mpr rfl
  rw [h, query_segmentsToPath] at hs
  exact List.map_injective_iff.mpr childOf_injective hs

end

section

variable {φ : Type*} {holds : φ → JsonPath.Tree Json → JsonPath.Tree Json → Bool}
  {root : JsonPath.Tree Json} {json v c : Json} {s : PathSegment}
  {segments : List PathSegment} {i : ℕ} {l : List ℕ}

theorem trees_eq_map (items : List Json) : Json.trees items = items.map Json.tree := by
  induction items
  case nil => rfl
  case cons json rest ih => exact congrArg (json.tree :: ·) ih

theorem memberTrees_eq_map (map : List (String × Json)) :
    Json.memberTrees map = map.map fun e => (e.1, e.2.tree) := by
  induction map
  case nil => rfl
  case cons e rest ih => exact congrArg ((e.1, e.2.tree) :: ·) ih

theorem entries_array {items : List Json} (h : (entries (.array items))[i]? = some (s, c)) :
    items[i]? = some c ∧ s = .index i := by
  simp only [entries, List.getElem?_map, List.getElem?_zipIdx, Option.map_eq_some_iff,
    Option.map_map] at h
  obtain ⟨a, ha, he⟩ := h
  obtain ⟨rfl, rfl⟩ := Prod.mk.inj he
  exact ⟨ha, by simp⟩

theorem entries_object {map : List (String × Json)}
    (h : (entries (.object map))[i]? = some (s, c)) :
    ∃ k, map[i]? = some (k, c) ∧ s = .key k := by
  simp only [entries, List.getElem?_map, Option.map_eq_some_iff] at h
  obtain ⟨⟨k, a⟩, ha, he⟩ := h
  obtain ⟨rfl, rfl⟩ := Prod.mk.inj he
  exact ⟨k, ha, rfl⟩

theorem entries_children (h : (entries json)[i]? = some (s, c)) : json.children[i]? = some c := by
  cases json
  case array items => exact (entries_array h).left
  case object map =>
    obtain ⟨k, hk, -⟩ := entries_object h
    rw [Json.children, List.getElem?_map, hk]
    rfl
  all_goals simp [entries] at h

theorem children_entries (h : json.children[i]? = some c) :
    ∃ s, (entries json)[i]? = some (s, c) := by
  cases json
  case array items =>
    rw [Json.children] at h
    exact ⟨.index i, by simp [entries, List.getElem?_zipIdx, h]⟩
  case object map =>
    rw [Json.children, List.getElem?_map] at h
    obtain ⟨e, he, rfl⟩ := Option.map_eq_some_iff.mp h
    exact ⟨.key e.1, by simp [entries, he]⟩
  all_goals simp [Json.children] at h

theorem Parsed.child (h : Parsed json) (hc : json.children[i]? = some c) : Parsed c where
  keys {l map} hl := h.keys (l := i :: l) (by rw [Json.node, hc, Option.bind_some, hl])
  length {l items} hl := h.length (l := i :: l) (by rw [Json.node, hc, Option.bind_some, hl])

theorem Parsed.of_children (hk : ∀ map, json = .object map → (map.map Prod.fst).Nodup)
    (hl : ∀ items, json = .array items → items.length < 2 ^ 32)
    (hc : ∀ c ∈ json.children, Parsed c) : Parsed json where
  keys {l map} h := by
    cases l
    case nil => exact hk map (Option.some.inj h)
    case cons i l =>
      obtain ⟨c, hi, h⟩ := Option.bind_eq_some_iff.mp h
      exact (hc c (List.mem_of_getElem? hi)).keys h
  length {l items} h := by
    cases l
    case nil => exact hl items (Option.some.inj h)
    case cons i l =>
      obtain ⟨c, hi, h⟩ := Option.bind_eq_some_iff.mp h
      exact (hc c (List.mem_of_getElem? hi)).length h

theorem apply_childOf (location : List ℕ) (hj : Parsed json)
    (h : (entries json)[i]? = some (s, c)) :
    (childOf s).apply holds root [⟨location, json.tree⟩] = [⟨location ++ [i], c.tree⟩] := by
  cases json
  case array items =>
    obtain ⟨hc, rfl⟩ := entries_array h
    obtain ⟨hi, rfl⟩ := List.getElem?_eq_some_iff.mp hc
    rw [childOf, JsonPath.Segment.apply_single, JsonPath.Selector.select, Json.tree, trees_eq_map]
    simp [JsonPath.Selector.positions, JsonPath.normalize, JsonPath.Tree.children, hi]
  case object map =>
    obtain ⟨k, hk, rfl⟩ := entries_object h
    -- The member is the first one with its key, as there is no other.
    have hf : map.findIdx? (·.1 = k) = some i := by
      obtain ⟨hi, he⟩ := List.getElem?_eq_some_iff.mp hk
      have hn : (map.map Prod.fst).Nodup := hj.keys (l := []) rfl
      refine List.findIdx?_eq_some_iff_getElem.mpr ⟨hi, by simp [he], fun j hji hjk => ?_⟩
      have hkeys : (map.map Prod.fst)[i]? = (map.map Prod.fst)[j]? := by
        simpa [he, hi, hji.trans hi] using (of_decide_eq_true hjk).symm
      exact hji.ne' ((List.getElem?_inj (by simpa using hi) hn).mp hkeys)
    rw [childOf, JsonPath.Segment.apply_single, JsonPath.Selector.select, Json.tree,
      memberTrees_eq_map]
    simp [JsonPath.Selector.positions, JsonPath.Tree.children, List.findIdx?_map, Function.comp_def,
      hf, hk]
  all_goals simp [entries] at h

theorem foldl_childOf (location : List ℕ) (hj : Parsed json)
    (h : treeNode l json = some (segments, v)) :
    (segments.map childOf).foldl (fun nodes s => s.apply holds root nodes) [⟨location, json.tree⟩] =
      [⟨location ++ l, v.tree⟩] := by
  induction l generalizing json segments location
  case nil =>
    obtain ⟨rfl, rfl⟩ := Prod.mk.inj (Option.some.inj h)
    simp
  case cons i l ih =>
    obtain ⟨⟨s, c⟩, hc, h⟩ := Option.bind_eq_some_iff.mp h
    obtain ⟨⟨segs, w⟩, hv, h⟩ := Option.bind_eq_some_iff.mp h
    obtain ⟨rfl, rfl⟩ := Prod.mk.inj (Option.some.inj h)
    rw [List.map_cons, List.foldl_cons, apply_childOf location hj hc,
      ih _ (hj.child (entries_children hc)) hv, List.append_assoc]
    rfl

theorem nodelist_childOf (holds : φ → JsonPath.Tree Json → JsonPath.Tree Json → Bool)
    (hj : Parsed json) (h : treeNode l json = some (segments, v)) :
    nodelist holds json.tree (segments.map childOf) = [⟨l, v.tree⟩] :=
  foldl_childOf [] hj h

theorem node_treeNode (h : json.node l = some v) :
    ∃ segments, treeNode l json = some (segments, v) := by
  induction l generalizing json
  case nil =>
    obtain rfl := Option.some.inj h
    exact ⟨[], rfl⟩
  case cons i l ih =>
    obtain ⟨c, hc, hv⟩ := Option.bind_eq_some_iff.mp h
    obtain ⟨s, hs⟩ := children_entries hc
    obtain ⟨segments, hsegs⟩ := ih hv
    exact ⟨s :: segments, by rw [treeNode, hs]; simp [hsegs]⟩

-- Every segment is within the range of the integers of queries.
theorem valid_childOf (hj : Parsed json) (h : treeNode l json = some (segments, v)) :
    JsonPath.Valid (φ := φ) (segments.map childOf) := by
  induction l generalizing json segments
  case nil =>
    obtain ⟨rfl, -⟩ := Prod.mk.inj (Option.some.inj h)
    exact List.forall_mem_nil _
  case cons i l ih =>
    obtain ⟨⟨s, c⟩, hc, hrest⟩ := Option.bind_eq_some_iff.mp h
    obtain ⟨⟨segs, w⟩, hv, he⟩ := Option.bind_eq_some_iff.mp hrest
    obtain ⟨rfl, rfl⟩ := Prod.mk.inj (Option.some.inj he)
    clear h hrest he
    refine List.forall_mem_cons.mpr ⟨?_, ih (hj.child (entries_children hc)) hv⟩
    cases s
    case key k => simp [childOf, JsonPath.Segment.selectors, JsonPath.Selector.integers]
    case index j =>
      cases json
      case array items =>
        obtain ⟨hc, he⟩ := entries_array hc
        obtain rfl := PathSegment.index.inj he
        have hi : j < items.length := (List.getElem?_eq_some_iff.mp hc).1
        have hlen : items.length < 2 ^ 32 := hj.length (l := []) rfl
        simp only [childOf, JsonPath.Segment.selectors, JsonPath.Selector.integers,
          List.mem_singleton, forall_eq]
        omega
      case object map =>
        obtain ⟨k, -, he⟩ := entries_object hc
        cases he
      all_goals simp [entries] at hc

end

section

variable {φ : Type*} {spells : List Char → φ → Prop}
  {holds : φ → JsonPath.Tree Json → JsonPath.Tree Json → Bool} {lib : Engine.Libraries}

-- A path is one query and no other. That of a node selects the node and nothing else, so that the
-- library finds it, and other nodes, like other segments, have another path.
theorem segmentsToPath_selects (hlib : Engine.Rfc9535 spells holds lib) :
    (∀ json l v, Parsed json → json.node l = some v →
      ∃ segments, treeNode l json = some (segments, v) ∧
        let path := segmentsToPath segments
        (∃! query, Query spells path.toList query) ∧
        (∀ query, Query spells path.toList query →
          nodelist holds json.tree query = [⟨l, v.tree⟩]) ∧
        Engine.jsonpathIsValid lib path ∧ Engine.jsonpathFirst lib json path = some v) ∧
    (∀ json l l' s s' v v', Parsed json → treeNode l json = some (s, v) →
      treeNode l' json = some (s', v') → segmentsToPath s = segmentsToPath s' → l = l') ∧
    Function.Injective segmentsToPath := by
  refine ⟨fun json l v hj hv => ?_, fun json l l' s s' v v' hj h h' he => ?_,
    segmentsToPath_injective⟩
  case refine_1 =>
    obtain ⟨segments, h⟩ := node_treeNode hv
    have hq : Query spells (segmentsToPath segments).toList (segments.map childOf) :=
      (query_segmentsToPath segments).mpr rfl
    have hn : ∀ query, Query spells (segmentsToPath segments).toList query →
        nodelist holds json.tree query = [⟨l, v.tree⟩] := by
      intro query hquery
      rw [(query_segmentsToPath segments).mp hquery]
      exact nodelist_childOf holds hj h
    have hvalid := hlib.accepts hq (valid_childOf hj h)
    obtain ⟨select, hs⟩ := Option.isSome_iff_exists.mp hvalid
    obtain ⟨query, hquery, hselect⟩ := hlib.selects hs
    refine ⟨segments, h, ⟨_, hq, fun query => (query_segmentsToPath segments).mp⟩, hn, hvalid, ?_⟩
    rw [Engine.jsonpathFirst, hs, Option.bind_some, hselect, hn query hquery]
    simp [hv]
  case refine_2 =>
    obtain rfl := segmentsToPath_injective he
    have hn := (nodelist_childOf holds hj h).symm.trans (nodelist_childOf holds hj h')
    exact congrArg JsonPath.Node.location (List.cons.inj hn).left

end

-- A reader of all queries that have no filters.
open Classical in
noncomputable def queryLibraries : Engine.Libraries :=
  { Engine.plainLibraries with
    jsonPath := fun path =>
      if h : ∃ query, Query (fun _ (_ : Empty) => False) path.toList query then
        some fun json => (nodelist (fun _ _ _ => false) json.tree h.choose).filterMap fun n =>
          json.node n.location
      else
        none }

theorem queryLibraries_rfc9535 :
    Engine.Rfc9535 (fun _ (_ : Empty) => False) (fun _ _ _ => false) queryLibraries where
  accepts {path query} hq _ := by
    have h : ∃ query, Query (fun _ (_ : Empty) => False) path.toList query := ⟨query, hq⟩
    simp [Engine.jsonpathIsValid, queryLibraries, h]
  selects {path select} hs := by
    by_cases h : ∃ query, Query (fun _ (_ : Empty) => False) path.toList query
    case pos =>
      simp only [queryLibraries, dif_pos h, Option.some.injEq] at hs
      exact ⟨h.choose, h.choose_spec, fun json => by rw [← hs]⟩
    case neg => simp [queryLibraries, dif_neg h] at hs

-- The second item of a member whose key has a quotation mark.
def quotedMember : Json :=
  .object [("a", .null), ("it's", .array [.bool true, .string "x"])]

theorem quotedMember_parsed : Parsed quotedMember := by
  have hleaf {json : Json} (hc : json.children = []) (ho : ∀ map, json ≠ .object map)
      (ha : ∀ items, json ≠ .array items) : Parsed json :=
    .of_children (fun map h => absurd h (ho map)) (fun items h => absurd h (ha items))
      (by simp [hc])
  have harray : Parsed (.array [.bool true, .string "x"]) := by
    refine .of_children (by simp) (by simp) fun c hc => ?_
    simp only [Json.children, List.mem_cons, List.not_mem_nil, or_false] at hc
    obtain rfl | rfl := hc <;> exact hleaf rfl (by simp) (by simp)
  refine .of_children (by simp [quotedMember]) (by simp [quotedMember]) fun c hc => ?_
  simp only [quotedMember, Json.children, List.map_cons, List.map_nil, List.mem_cons,
    List.not_mem_nil, or_false] at hc
  obtain rfl | rfl := hc
  case inl => exact hleaf rfl (by simp) (by simp)
  case inr => exact harray

theorem quotedMember_selected :
    segmentsToPath [.key "it's", .index 1] = "$['it\\'s'][1]" ∧
    Engine.jsonpathFirst queryLibraries quotedMember "$['it\\'s'][1]" = some (.string "x") := by
  have hp : segmentsToPath [.key "it's", .index 1] = "$['it\\'s'][1]" := by decide
  obtain ⟨segments, hs, -, -, -, hf⟩ := (segmentsToPath_selects queryLibraries_rfc9535).left
    quotedMember [1, 1] (.string "x") quotedMember_parsed rfl
  obtain rfl : [.key "it's", .index 1] = segments := (Prod.mk.inj (Option.some.inj hs)).left
  rw [hp] at hf
  exact ⟨hp, hf⟩

end Ui
