import Handicap.Library.Table
import Handicap.Library.Utf8
import Handicap.Store.Profile

-- Templates, and the loop that all renderers share.
namespace Engine

-- Errors of other libraries are given as their texts.
inductive EngineError
  | scenarioParse (message : String)
  | unknownVar (name : String)
  | malformedTemplate (near : String)
  | http (message : String)
  | allVusFailed (failed total : ℕ) (cause : Option String)
  | histogram (message : String)
  | io (message : String)
  | extractFailed (message : String)
  | castFailed (var cast value : String)
  | aborted
  deriving DecidableEq

structure TemplateContext where
  vars      : Table String String
  env       : Table String String
  vuId      : ℕ
  iterId    : ℕ
  loopIndex : Option ℕ

-- What has been written, and the names without a value, if they are collected.
structure Rendering where
  out  : List Char
  sink : Option (List String)
  deriving DecidableEq

def trimmed (l : List Char) : String :=
  .ofList (Text.strip Store.isWhiteSpace l)

namespace TemplateContext

variable (ctx : TemplateContext)

-- The value of a name of the system or of the environment.
def system (name : String) (default : Option String) : Option String :=
  match name with
  | "vu_id"      => some (toString ctx.vuId)
  | "iter_id"    => some (toString ctx.iterId)
  | "loop_index" => ctx.loopIndex.map toString
  | other        =>
    match ctx.env.lookup other with
    | some v => some v
    | none   => default

end TemplateContext

-- The name between the braces, and the default after it.
def splitDefault (inner : List Char) : String × Option String :=
  match Text.cut [':', '-'] inner with
  | some (name, default) => (trimmed name, some (.ofList default))
  | none                 => (trimmed inner, none)

def findPair (b : List UInt8) (start : ℕ) (needle : List UInt8) : Option ℕ :=
  if needle = [] ∨ b.length ≤ start then none else Utf8.find needle (b.drop start) start

-- There is no result where the start is not within the bytes.
def findByte (b : List UInt8) (start : ℕ) (needle : UInt8) : Option (Option ℕ) :=
  (Utf8.range b start b.length).map fun rest => Utf8.find [needle] rest start

namespace Rendering

variable (r : Rendering)

def push (text : List Char) : Rendering :=
  { r with out := r.out ++ text }

def collect (name : String) : Rendering :=
  { r with sink := r.sink.map (· ++ [name]) }

-- What becomes of a name with its value, if it has one.
def resolve (lenient : Bool) (name : String) : Option String → Except EngineError Rendering
  | some value => .ok (r.push value.toList)
  | none       => if lenient then .ok (r.collect name) else .error (.unknownVar name)

end Rendering

-- A token that cannot be read is an error, or is left as it is with what comes after it. There is
-- no result where the rest of the text is not a slice of it.
def malformed (bytes : List UInt8) (lenient : Bool) (r : Rendering) (i : ℕ) (near : String) :
    Option (Except EngineError Rendering) :=
  if lenient then (Utf8.slice bytes i bytes.length).map fun text => .ok (r.push text)
  else some (.error (.malformedTemplate near))

-- The rest of the loop, which an error ends.
def proceed (r : Except EngineError Rendering)
    (loop : Rendering → Option (Except EngineError Rendering)) :
    Option (Except EngineError Rendering) :=
  match r with
  | .error e => some (.error e)
  | .ok r    => loop r

-- The loop over the bytes of a template. There is no result where it panics, at an index that is
-- not within the bytes or not between two characters, and where it takes more steps than it has
-- fuel.
def renderLoop (bytes : List UInt8) (ctx : TemplateContext) (lenient : Bool) :
    ℕ → ℕ → ℕ → Rendering → Option (Except EngineError Rendering)
  | 0, _, _, _                => none
  | fuel + 1, i, litStart, r =>
    if i < bytes.length then
      if bytes[i]? = some 0x7b ∧ bytes[i + 1]? = some 0x7b then do
        let r := r.push (← Utf8.slice bytes litStart i)
        match findPair bytes (i + 2) [0x7d, 0x7d] with
        | none     => malformed bytes lenient r i s!"unclosed \x7b\x7b at byte {i}"
        | some «end» =>
          match Utf8.decode (← Utf8.range bytes (i + 2) «end») with
          | none       => malformed bytes lenient r i "non-utf8 in \x7b\x7b \x7d\x7d"
          | some inner =>
            let name := trimmed inner
            proceed (r.resolve lenient name (ctx.vars.lookup name)) fun r =>
              renderLoop bytes ctx lenient fuel («end» + 2) («end» + 2) r
      else if bytes[i]? = some 0x24 ∧ bytes[i + 1]? = some 0x7b then do
        let r := r.push (← Utf8.slice bytes litStart i)
        match ← findByte bytes (i + 2) 0x7d with
        | none     => malformed bytes lenient r i s!"unclosed $\x7b at byte {i}"
        | some «end» =>
          match Utf8.decode (← Utf8.range bytes (i + 2) «end») with
          | none       => malformed bytes lenient r i "non-utf8 in $\x7b \x7d"
          | some inner =>
            let (name, default) := splitDefault inner
            proceed (r.resolve lenient name (ctx.system name default)) fun r =>
              renderLoop bytes ctx lenient fuel («end» + 1) («end» + 1) r
      else
        renderLoop bytes ctx lenient fuel (i + 1) litStart r
    else
      (Utf8.slice bytes litStart bytes.length).map fun text => .ok (r.push text)

def renderInner (input : String) (ctx : TemplateContext) (lenient : Bool)
    (sink : Option (List String)) : Option (Except EngineError Rendering) :=
  let bytes := Utf8.encode input.toList
  renderLoop bytes ctx lenient (bytes.length + 1) 0 0 ⟨[], sink⟩

end Engine
