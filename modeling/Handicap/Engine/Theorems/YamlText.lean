import Handicap.Engine.Theorems.RoundTrip
import Mathlib.Data.Rat.Encodable
import Mathlib.Logic.Equiv.List

-- Every tree has a text.
namespace Engine

-- A node of a tree, without the nodes below.
inductive TreeNode
  | null
  | bool (b : Bool)
  | int (n : YamlInt)
  | wide (n : WideInt)
  | float (q : Binary64.Double)
  | string (s : String)
  | sequence (length : ℕ)
  | mapping (keys : List String)
  deriving DecidableEq

namespace TreeNode

def chars (s : String) : List ℕ :=
  s.toList.map Char.toNat

def text (l : List ℕ) : String :=
  .ofList (l.map Char.ofNat)

theorem text_chars (s : String) : text (chars s) = s := by
  simp [text, chars, Function.comp_def]

abbrev Code :=
  Bool ⊕ ℤ ⊕ ℚ ⊕ List ℕ ⊕ ℕ ⊕ List (List ℕ)

def encode : TreeNode → Option Code
  | null          => none
  | bool b        => some (.inl b)
  | int n         => some (.inr (.inl n.val))
  | wide n        => some (.inr (.inl n.val))
  | float q       => some (.inr (.inr (.inl q.val)))
  | string s      => some (.inr (.inr (.inr (.inl (chars s)))))
  | sequence n    => some (.inr (.inr (.inr (.inr (.inl n)))))
  | mapping keys  => some (.inr (.inr (.inr (.inr (.inr (keys.map chars))))))

def ofInt (n : ℤ) : TreeNode :=
  if h : -2 ^ 63 ≤ n ∧ n < 2 ^ 64 then
    int ⟨n, h.left, h.right⟩
  else if h' : -2 ^ 127 ≤ n ∧ n < 2 ^ 128 then
    wide ⟨n, by omega, h'.left, h'.right⟩
  else
    null

def ofRat (q : ℚ) : TreeNode :=
  if h : Binary64.nearest q = some q then float ⟨q, Binary64.representable_of_nearest h⟩ else null

def decode : Option Code → TreeNode
  | none                                          => null
  | some (.inl b)                                 => bool b
  | some (.inr (.inl n))                          => ofInt n
  | some (.inr (.inr (.inl q)))                   => ofRat q
  | some (.inr (.inr (.inr (.inl s))))            => string (text s)
  | some (.inr (.inr (.inr (.inr (.inl n)))))     => sequence n
  | some (.inr (.inr (.inr (.inr (.inr keys)))))  => mapping (keys.map text)

theorem decode_encode (t : TreeNode) : decode t.encode = t := by
  cases t
  case int n  => exact dif_pos ⟨n.lo, n.hi⟩
  case wide n =>
    have hn : ¬(-2 ^ 63 ≤ n.val ∧ n.val < 2 ^ 64) := fun h => by have := n.wide; omega
    exact (dif_neg hn).trans (dif_pos ⟨n.lo, n.hi⟩)
  case float q      => exact dif_pos (Binary64.nearest_eq_self q.property)
  case string s     => simp [encode, decode, text_chars]
  case mapping keys => simp [encode, decode, Function.comp_def, text_chars]
  all_goals rfl

instance : Encodable TreeNode :=
  .ofLeftInverse encode decode decode_encode

end TreeNode

mutual

-- The nodes of a tree, each before the nodes below it.
def Yaml.flatten : Yaml → List TreeNode
  | .null            => [.null]
  | .bool b          => [.bool b]
  | .int n           => [.int n]
  | .wide n          => [.wide n]
  | .float q         => [.float q]
  | .string s        => [.string s]
  | .sequence items  => .sequence items.length :: flattenItems items
  | .mapping entries => .mapping (entries.map Prod.fst) :: flattenEntries entries

def flattenItems : List Yaml → List TreeNode
  | []         => []
  | y :: items => y.flatten ++ flattenItems items

def flattenEntries : List (String × Yaml) → List TreeNode
  | []                => []
  | (_, y) :: entries => y.flatten ++ flattenEntries entries

end

-- A node takes the trees below it from those that have been built after it.
def TreeNode.build : TreeNode → List Yaml → List Yaml
  | null, stack         => .null :: stack
  | bool b, stack       => .bool b :: stack
  | int n, stack        => .int n :: stack
  | wide n, stack       => .wide n :: stack
  | float q, stack      => .float q :: stack
  | string s, stack     => .string s :: stack
  | sequence n, stack   => .sequence (stack.take n) :: stack.drop n
  | mapping keys, stack => .mapping (keys.zip stack) :: stack.drop keys.length

section

variable {stack : List Yaml}

theorem foldr_flattenItems {items : List Yaml}
    (h : ∀ y ∈ items, ∀ stack, y.flatten.foldr TreeNode.build stack = y :: stack) :
    (flattenItems items).foldr TreeNode.build stack = items ++ stack := by
  induction items
  case nil => rfl
  case cons y items ih =>
    obtain ⟨hy, hl⟩ := List.forall_mem_cons.mp h
    rw [flattenItems, List.foldr_append, ih hl, hy]
    rfl

theorem foldr_flattenEntries {entries : List (String × Yaml)}
    (h : ∀ e ∈ entries, ∀ stack, e.2.flatten.foldr TreeNode.build stack = e.2 :: stack) :
    (flattenEntries entries).foldr TreeNode.build stack = entries.map Prod.snd ++ stack := by
  induction entries
  case nil => rfl
  case cons e entries ih =>
    obtain ⟨he, hl⟩ := List.forall_mem_cons.mp h
    rw [flattenEntries, List.foldr_append, ih hl, he]
    rfl

end

-- A tree is built again from its nodes.
theorem foldr_flatten (y : Yaml) : ∀ stack, y.flatten.foldr TreeNode.build stack = y :: stack := by
  induction y using Yaml.tree_induction
  case sequence items ih =>
    intro stack
    simp [Yaml.flatten, TreeNode.build, foldr_flattenItems ih]
  case mapping entries ih =>
    intro stack
    have hz : (entries.map Prod.fst).zip (entries.map Prod.snd ++ stack) = entries := by
      clear ih
      induction entries
      case nil         => rfl
      case cons e l ih => simp [ih]
    simp [Yaml.flatten, TreeNode.build, foldr_flattenEntries ih, hz]
  all_goals exact fun _ => rfl

theorem flatten_injective : Function.Injective Yaml.flatten := by
  intro y y' h
  have hf := foldr_flatten y []
  rw [h, foldr_flatten y' []] at hf
  exact (List.cons.inj hf).left.symm

-- A text of its own for every tree that is not in a table of texts.
def YamlText.ofTable (table : List (String × Yaml)) : YamlText where
  parse text :=
    match table.find? fun e => e.1 = text with
    | some e => .ok e.2
    | none   =>
      match (Encodable.decode text.length : Option (List TreeNode)) with
      | some tokens => ((tokens.foldr TreeNode.build []).head?).elim (.error "no tree") .ok
      | none        => .error "no tree"
  print y :=
    match table.find? fun e => e.2.flatten = y.flatten with
    | some e => .ok e.1
    | none   => .ok (.ofList (List.replicate (Encodable.encode y.flatten) '|'))

section

variable {table : List (String × Yaml)} {text : String} {y : Yaml}

theorem YamlText.ofTable_parse (hn : (table.map Prod.fst).Nodup) (he : (text, y) ∈ table) :
    (YamlText.ofTable table).parse text = .ok y := by
  have hp : table.find? (fun e => e.1 = text) = some (text, y) := by
    cases hp : table.find? fun e => e.1 = text
    case none => exact absurd (decide_eq_true rfl) (List.find?_eq_none.mp hp _ he)
    case some e' =>
      have he' := List.find?_some hp
      exact congrArg some (List.inj_on_of_nodup_map hn (List.mem_of_find?_eq_some hp) he
        (of_decide_eq_true he'))
  simp only [ofTable, hp]

theorem YamlText.ofTable_lossless (hn : (table.map Prod.fst).Nodup)
    (ht : ∀ text ∈ table.map Prod.fst, ∃ c ∈ text.toList, c ≠ '|') :
    (YamlText.ofTable table).Lossless := by
  intro y _
  cases hf : table.find? fun e => e.2.flatten = y.flatten
  case some e =>
    have hy := List.find?_some hf
    obtain rfl : e.2 = y := flatten_injective (of_decide_eq_true hy)
    exact ⟨e.1, by simp only [ofTable, hf], ofTable_parse hn (List.mem_of_find?_eq_some hf)⟩
  case none =>
    refine ⟨.ofList (List.replicate (Encodable.encode y.flatten) '|'),
      by simp only [ofTable, hf], ?_⟩
    have hp : table.find? (fun e => e.1 =
        String.ofList (List.replicate (Encodable.encode y.flatten) '|')) = none := by
      refine List.find?_eq_none.mpr fun e he => ?_
      obtain ⟨c, hc, hne⟩ := ht e.1 (List.mem_map_of_mem he)
      intro h
      rw [of_decide_eq_true h, String.toList_ofList] at hc
      exact hne (List.eq_of_mem_replicate hc)
    simp [ofTable, hp, foldr_flatten]

end

end Engine
