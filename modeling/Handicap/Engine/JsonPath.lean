import Handicap.Engine.Extract
import Handicap.Library.JsonPathText

-- What is relied on of the library that reads and answers JSONPath queries.
namespace Engine

namespace Json

mutual

def tree : Json → JsonPath.Tree Json
  | .array items => .array (trees items)
  | .object map  => .object (memberTrees map)
  | .null        => .leaf .null
  | .bool b      => .leaf (.bool b)
  | .number n    => .leaf (.number n)
  | .string s    => .leaf (.string s)

def trees : List Json → List (JsonPath.Tree Json)
  | []           => []
  | json :: rest => json.tree :: trees rest

def memberTrees : List (String × Json) → List (String × JsonPath.Tree Json)
  | []                => []
  | (k, json) :: rest => (k, json.tree) :: memberTrees rest

end

def children : Json → List Json
  | .array items => items
  | .object map  => map.map Prod.snd
  | _            => []

def node : Json → List ℕ → Option Json
  | json, []     => some json
  | json, i :: l => json.children[i]?.bind fun child => child.node l

end Json

def jsonpathIsValid (lib : Libraries) (path : String) : Bool :=
  (lib.jsonPath path).isSome

-- A library of JSONPath reads the texts of the grammar, and gives the values of the nodes that a
-- text selects.
structure Rfc9535 {φ : Type*} (spells : List Char → φ → Prop)
    (holds : φ → JsonPath.Tree Json → JsonPath.Tree Json → Bool) (lib : Libraries) : Prop where
  accepts {path : String} {query : List (JsonPath.Segment φ)} :
    JsonPath.Query spells path.toList query → JsonPath.Valid query → jsonpathIsValid lib path
  selects {path : String} {select : Json → List Json} : lib.jsonPath path = some select →
    ∃ query, JsonPath.Query spells path.toList query ∧ ∀ json : Json, select json =
      (JsonPath.nodelist holds json.tree query).filterMap fun n => json.node n.location

end Engine
