import Handicap.Engine.GenVars
import Handicap.Library.Word

-- The values of the variables that are generated. A computation without a result is one that
-- panics.
namespace Engine

-- A generator of random numbers: one from an inclusive range, distinct indices below a length, and
-- bytes.
structure Rng (σ : Type) where
  genRange : ℕ → ℕ → σ → ℕ × σ
  sample   : ℕ → ℕ → σ → List ℕ × σ
  fill     : ℕ → σ → List UInt8 × σ

namespace Rng

variable {σ : Type} (rng : Rng σ)

structure Lawful : Prop where
  genRange : ∀ lo hi s, lo ≤ hi → lo ≤ (rng.genRange lo hi s).1 ∧ (rng.genRange lo hi s).1 ≤ hi
  sample   : ∀ length amount s, amount ≤ length → (rng.sample length amount s).1.Nodup ∧
    (rng.sample length amount s).1.length = amount ∧ ∀ i ∈ (rng.sample length amount s).1, i < length
  fill     : ∀ n s, (rng.fill n s).1.length = n

-- An empty range has no number.
def range (lo hi : ℕ) : StateT σ Option ℕ :=
  fun s => if lo ≤ hi then some (rng.genRange lo hi s) else none

-- There are no more distinct indices than the length.
def indices (length amount : ℕ) : StateT σ Option (List ℕ) :=
  fun s => if amount ≤ length then some (rng.sample length amount s) else none

def bytes (n : ℕ) : StateT σ Option (List UInt8) :=
  fun s => some (rng.fill n s)

end Rng

-- The points in time that can be represented, in nanoseconds since the epoch, and how an item of a
-- format is written for one of them in a time zone.
structure Chrono where
  minUtc    : ℤ
  maxUtc    : ℤ
  writeItem : Option String → ℤ → StrftimeItem → Option String

namespace Chrono

variable (chrono : Chrono)

-- A span of seconds that fits into 64 bits in milliseconds.
def seconds (secs : ℤ) : Option ℤ :=
  if |secs| * 1000 < 2 ^ 63 then some (secs * 1000000000) else none

def checkedAddSigned (t span : ℤ) : Option ℤ :=
  if chrono.minUtc ≤ t + span ∧ t + span ≤ chrono.maxUtc then some (t + span) else none

def timestamp (t : ℤ) : ℤ :=
  t / 1000000000

def timestampMillis (t : ℤ) : ℤ :=
  t / 1000000

end Chrono

def i128 (n : ℤ) : Option ℤ :=
  if -2 ^ 127 ≤ n ∧ n < 2 ^ 127 then some n else none

def asU64 (n : ℤ) : ℕ :=
  (n % 2 ^ 64).toNat

def asI64 (n : ℤ) : ℤ :=
  n.bmod (2 ^ 64)

variable {σ : Type} (rng : Rng σ)

-- A format is written item by item, and fails with the first of them that fails.
def writeDate (lib : DeclLib) (chrono : Chrono) (g : DateGen) (t : ℤ) : Option String :=
  match g.format with
  | "unix"    => some (toString (Chrono.timestamp t))
  | "unix_ms" => some (toString (Chrono.timestampMillis t))
  | f         => ((lib.strftimeItems f).mapM (chrono.writeItem g.tz t)).map String.join

-- An offset that leaves the representable points ends at the last of them.
def evalDate (lib : DeclLib) (chrono : Chrono) (g : DateGen) (nowUtc : ℤ) : Option String := do
  let span ← Chrono.seconds g.offsetSecs
  let t := (chrono.checkedAddSigned nowUtc span).getD <|
    if 0 ≤ g.offsetSecs then chrono.maxUtc else chrono.minUtc
  writeDate lib chrono g t

def evalRandomInt (g : RandomIntGen) : StateT σ Option String := do
  let width ← i128 (g.max - g.min)
  let span := asU64 width
  let last ← if g.step = 0 then none else some (span / g.step)
  let k ← rng.range 0 last
  let distance ← i128 (k * g.step)
  let value ← i128 (g.min + distance)
  return toString (asI64 value)

def hexByte (b : UInt8) : List Char :=
  [Nat.digitChar (b.toNat / 16), Nat.digitChar (b.toNat % 16)]

def evalUuid : StateT σ Option String := do
  let b ← rng.bytes 16
  -- Version 4 of the variant of RFC 4122.
  let b := (b.modify 6 fun x => (x &&& 0x0F) ||| 0x40).modify 8 fun x => (x &&& 0x3F) ||| 0x80
  let hex (first last : ℕ) := ((b.take last).drop first).flatMap hexByte
  return .ofList (hex 0 4 ++ '-' :: hex 4 6 ++ '-' :: hex 6 8 ++ '-' :: hex 8 10 ++
    '-' :: hex 10 16)

def rsChars : List Char :=
  "abcdefghijklmnopqrstuvwxyz0123456789".toList

def evalRandomString (length : ℕ) : StateT σ Option String := do
  let chars ← (List.range length).mapM fun _ => do
    let i ← rng.range 0 (rsChars.length - 1)
    rsChars[i]?
  return .ofList chars

-- The picked value is put in the place of the candidates that have been drawn.
def placePicks (candidates : List ℕ) (pick : Scalar) :
    List ℕ → List Scalar → Option (List Scalar)
  | [], out        => some out
  | idx :: is, out => do
    let position ← candidates[idx]?
    let place ← Word.checkedSub position 1
    if place < out.length then placePicks candidates pick is (out.set place pick) else none

def evalPickArray (json : List Scalar → String) (g : PickArrayGen) : StateT σ Option String := do
  let c := g.candidates.length
  let hi := min g.max c
  let lo := min g.min hi
  let k ← rng.range lo hi
  let pick := g.pick.getD (.bool true)
  let rest := g.rest.getD (.bool false)
  let drawn ← rng.indices c k
  let out ← placePicks g.candidates pick drawn (List.replicate g.length rest)
  return json out

def evalGen (lib : DeclLib) (chrono : Chrono) (json : List Scalar → String) (spec : GenSpec)
    (now : ℤ) : StateT σ Option String :=
  match spec with
  | .date g              => evalDate lib chrono g now
  | .randomInt g         => evalRandomInt rng g
  | .uuid                => evalUuid rng
  | .randomString length => evalRandomString rng length
  | .pickArray g         => evalPickArray rng json g

end Engine
