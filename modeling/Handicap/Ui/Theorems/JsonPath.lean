import Handicap.Monitor.Theorems.JsonPath
import Handicap.Ui.JsonPath

-- The suggested paths are simple.
namespace Ui

open Monitor (Quoted)

variable {key : List Char}

theorem hex_ne {n : ℕ} (hn : n < 0x20) :
    ∀ c ∈ (Nat.toDigits 16 n).leftpad 4 '0', c ≠ '\\' ∧ c ≠ '\'' := by
  have hall : ∀ n < 0x20, ((Nat.toDigits 16 n).leftpad 4 '0').all fun c => c ≠ '\\' ∧ c ≠ '\'' := by
    decide +kernel
  exact fun c hc => of_decide_eq_true (List.all_eq_true.mp (hall n hn) c hc)

theorem quoted_escapeBracketKey (key : List Char) : Quoted '\'' (escapeBracketKey key ++ ['\'']) := by
  induction key
  case nil => exact .close
  case cons c key ih =>
    rw [escapeBracketKey, List.flatMap_cons, List.append_assoc]
    split
    case isTrue => exact .escape ih
    case isFalse hb =>
      split
      case isTrue => exact .escape ih
      case isFalse hq =>
        split
        case isTrue hc => exact .escape (ih.append (hex_ne hc))
        case isFalse => exact .char hb hq ih

theorem shorthand_of_identRe (h : identRe key) : JsonPath.Shorthand key := by
  cases key
  case nil => simp [identRe] at h
  case cons c l =>
    obtain ⟨hc, hl⟩ := Bool.and_eq_true_iff.mp h
    refine .mk ?_ fun d hd => ?_
    case refine_1 => exact (by simpa using hc : c.isAlpha ∨ c = '_').imp_right .inl
    case refine_2 =>
      have hd : (d.isAlpha ∨ d.isDigit) ∨ d = '_' := by
        simpa [Char.isAlphanum] using List.all_eq_true.mp hl d hd
      obtain (ha | hn) | hu := hd
      case inl.inl => exact .inl (.inl ha)
      case inl.inr => exact .inr hn
      case inr => exact .inl (.inr (.inl hu))

theorem segment_segmentText (s : PathSegment) : Monitor.Segment false (segmentText s) := by
  cases s
  case index i =>
    have hd : ∀ c ∈ Nat.toDigits 10 i, c.isDigit :=
      fun c hc => Nat.isDigit_of_mem_toDigits (by decide) (by decide) hc
    have hb : Monitor.Bracket (toString i).toList := by
      have he : (toString i).toList = Nat.toDigits 10 i := by simp
      rw [he]
      exact .digits Nat.toDigits_ne_nil hd
    exact .bracket hb
  case key k =>
    rw [segmentText]
    split
    case isTrue h => exact .member (.name (shorthand_of_identRe h))
    case isFalse =>
      have hb := Monitor.Segment.bracket (.quoted (.inl rfl) (quoted_escapeBracketKey k.toList))
      simpa using hb

theorem segmentsToPath_simple (segments : List PathSegment) :
    Monitor.jsonpathIsSimple (segmentsToPath segments) := by
  refine (Monitor.jsonpathIsSimple_iff _).mpr
    ⟨segments.map fun s => (false, segmentText s), ?_, ?_, ?_⟩
  case refine_1 =>
    rw [segmentsToPath, String.toList_ofList, List.map_map, List.flatMap_def]
    rfl
  case refine_2 => simpa using fun s _ => segment_segmentText s
  case refine_3 =>
    have h0 : (segments.map fun s => (false, segmentText s)).countP Prod.fst = 0 :=
      List.countP_eq_zero.mpr (by simp)
    exact h0.trans_le (Nat.zero_le 1)

section

variable {α φ : Type*} (spells : List Char → φ → Prop)
  (holds : φ → JsonPath.Tree α → JsonPath.Tree α → Bool)

-- The simple paths are the grammar, no query of theirs selects a node twice, and what is suggested
-- is simple.
theorem jsonpath_simple :
    (∀ path, Monitor.jsonpathIsSimple path ↔ Monitor.Path path.toList) ∧
    (∀ path query root, Monitor.jsonpathIsSimple path → JsonPath.Query spells path.toList query →
      JsonPath.Distinct (JsonPath.nodelist holds root query) ∧
        (JsonPath.nodelist holds root query).length ≤ root.descendants.length) ∧
    ∀ segments, Monitor.jsonpathIsSimple (segmentsToPath segments) :=
  ⟨Monitor.jsonpathIsSimple_iff, fun _ _ _ hs hq => Monitor.nodelist_of_simple hs hq,
    segmentsToPath_simple⟩

end

-- All first items below a member.
def firstItems : List (JsonPath.Segment Empty) :=
  [.child [.name "a"], .descendant [.index 0]]

def nestedItems : JsonPath.Tree ℕ :=
  .object [("a", .array [.array [.leaf 1, .leaf 2], .object [("b", .array [.leaf 3])]])]

theorem jsonpath_simple_firstItems :
    Monitor.jsonpathIsSimple "$.a..[0]" ∧
    JsonPath.Distinct (JsonPath.nodelist (fun _ _ _ => false) nestedItems firstItems) := by
  have hs : Monitor.jsonpathIsSimple "$.a..[0]" := by decide
  have hq : JsonPath.Query (fun _ (_ : Empty) => False) "$.a..[0]".toList firstItems := by
    have hb : JsonPath.Blank [] := List.forall_mem_nil _
    have hz : JsonPath.Bracketed (fun _ (_ : Empty) => False) ['[', '0', ']'] [.index 0] :=
      .mk (s := []) (t := []) (m := []) hb hb (.index .zero) .nil
    have ha : JsonPath.Shorthand ['a'] := .mk (.inl rfl) (List.forall_mem_nil _)
    exact .mk (.cons (s := []) hb (.name ha) (.cons (s := []) (m := []) hb
      (.descendantBracketed hz) .nil))
  exact ⟨hs, ((jsonpath_simple (fun _ (_ : Empty) => False) fun _ _ _ => false).right.left
    "$.a..[0]" firstItems nestedItems hs hq).left⟩

end Ui
