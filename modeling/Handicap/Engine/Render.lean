import Handicap.Engine.Cast
import Handicap.Engine.Theorems.Template

-- The renderers of templates and of JSON bodies: the strict ones, which requests are built with,
-- and those of conditions and traces.
namespace Engine

-- The loop has a result for every template.
def rendered (input : String) (ctx : TemplateContext) (lenient : Bool)
    (sink : Option (List String)) : Except EngineError Rendering :=
  (renderInner input ctx lenient sink).get (by rw [renderInner_eq]; rfl)

def render (input : String) (ctx : TemplateContext) : Except EngineError String :=
  (rendered input ctx false none).map fun r => .ofList r.out

def renderLenient (input : String) (ctx : TemplateContext) : String :=
  ((rendered input ctx true none).map fun r => .ofList r.out).toOption.getD ""

-- The names without a value come after the ones that there are.
def renderCollecting (input : String) (ctx : TemplateContext) (unbound : List String) :
    String × List String :=
  match rendered input ctx true (some unbound) with
  | .ok r    => (.ofList r.out, r.sink.getD unbound)
  | .error _ => ("", unbound)

section

variable (fromStr : String → Option Json) (ctx : TemplateContext)

-- A text of a body, which is cast where it is a token with a cast.
def renderLeaf (s : String) : Except EngineError Json :=
  match parseCastLeaf s with
  | some (bare, .str) => do return .string (← render bare ctx)
  | some (bare, .num) => do
    let r ← render bare ctx
    (coerceNum fromStr r).elim (.error (.castFailed bare "num" r)) .ok
  | some (bare, .bool) => do
    let r ← render bare ctx
    (coerceBool r).elim (.error (.castFailed bare "bool" r)) .ok
  | some (bare, .json) => do
    let r ← render bare ctx
    (coerceJson fromStr r).elim (.error (.castFailed bare "json" r)) .ok
  | none => do return .string (← render s ctx)

mutual

def renderJsonValue : Json → Except EngineError Json
  | .string s     => renderLeaf fromStr ctx s
  | .array items  => do return .array (← renderJsonItems items)
  | .object map   => do return .object (← renderJsonEntries map)
  | .null         => .ok .null
  | .bool b       => .ok (.bool b)
  | .number n     => .ok (.number n)

def renderJsonItems : List Json → Except EngineError (List Json)
  | []            => .ok []
  | item :: items => do
    let item ← renderJsonValue item
    return item :: (← renderJsonItems items)

def renderJsonEntries : List (String × Json) → Except EngineError (List (String × Json))
  | []            => .ok []
  | (k, v) :: map => do
    let v ← renderJsonValue v
    return (k, v) :: (← renderJsonEntries map)

end

def renderLeafCollecting (s : String) (unbound : List String) : Json × List String :=
  match parseCastLeaf s with
  | some (bare, .str) =>
    let (r, unbound) := renderCollecting bare ctx unbound
    (.string r, unbound)
  | some (bare, .num) =>
    let (r, unbound) := renderCollecting bare ctx unbound
    ((coerceNum fromStr r).getD (.string r), unbound)
  | some (bare, .bool) =>
    let (r, unbound) := renderCollecting bare ctx unbound
    ((coerceBool r).getD (.string r), unbound)
  | some (bare, .json) =>
    let (r, unbound) := renderCollecting bare ctx unbound
    ((coerceJson fromStr r).getD (.string r), unbound)
  | none =>
    let (r, unbound) := renderCollecting s ctx unbound
    (.string r, unbound)

mutual

def renderJsonCollecting : Json → List String → Json × List String
  | .string s, unbound    => renderLeafCollecting fromStr ctx s unbound
  | .array items, unbound =>
    let (items, unbound) := renderItemsCollecting items unbound
    (.array items, unbound)
  | .object map, unbound  =>
    let (map, unbound) := renderEntriesCollecting map unbound
    (.object map, unbound)
  | .null, unbound        => (.null, unbound)
  | .bool b, unbound      => (.bool b, unbound)
  | .number n, unbound    => (.number n, unbound)

def renderItemsCollecting : List Json → List String → List Json × List String
  | [], unbound            => ([], unbound)
  | item :: items, unbound =>
    let (item, unbound) := renderJsonCollecting item unbound
    let (items, unbound) := renderItemsCollecting items unbound
    (item :: items, unbound)

def renderEntriesCollecting :
    List (String × Json) → List String → List (String × Json) × List String
  | [], unbound            => ([], unbound)
  | (k, v) :: map, unbound =>
    let (v, unbound) := renderJsonCollecting v unbound
    let (map, unbound) := renderEntriesCollecting map unbound
    ((k, v) :: map, unbound)

end

end

end Engine
