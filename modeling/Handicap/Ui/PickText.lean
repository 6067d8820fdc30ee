import Handicap.Library.Binary64
import Handicap.Ui.PickArray
import Handicap.Ui.Store

-- The texts of a picked array: its positions, and the literals of its values.
namespace Ui

section Positions

-- The runs of neighbouring positions, of which the first one has been read so far.
def positionRuns (first last : ℕ) : List ℕ → List (ℕ × ℕ)
  | []      => [(first, last)]
  | x :: xs =>
    if x = last + 1 then positionRuns first x xs
    else (first, last) :: positionRuns x x xs

def runText (run : ℕ × ℕ) : String :=
  if run.1 = run.2 then toString run.1 else s!"{run.1}-{run.2}"

def formatPositions (set : List ℕ) : String :=
  match set.dedup.mergeSort with
  | []      => ""
  | x :: xs => ", ".intercalate ((positionRuns x x xs).map runText)

def isFullRange (set : List ℕ) (length : ℕ) : Bool :=
  set.length = length && set.zipIdx.all fun (p, i) => p = i + 1

-- A text that cannot be read stays as it is.
def trimPositionsForLength (text : String) (baseLength newLength : ℕ) : String :=
  if newLength = baseLength then text
  else
    match parsePositions text baseLength with
    | .error _ => text
    | .ok set  =>
      if isFullRange set baseLength then s!"1-{newLength}"
      else formatPositions (set.filter (· ≤ newLength))

end Positions

-- A text as the units of its encoding in UTF-16, of which surrogates may stand alone.
abbrev Utf16 := List UInt16

namespace Utf16

def isHigh (u : UInt16) : Bool :=
  0xD800 ≤ u && u < 0xDC00

def isLow (u : UInt16) : Bool :=
  0xDC00 ≤ u && u < 0xE000

def codePoints : Utf16 → ℕ
  | []          => 0
  | [_]         => 1
  | u :: v :: s => if isHigh u && isLow v then codePoints s + 1 else codePoints (v :: s) + 1

-- The character of a unit that is no surrogate.
def char (u : UInt16) : Char :=
  .ofNat u.toNat

def ofText (l : List Char) : Utf16 :=
  l.map fun c => .ofNat c.toNat

def trim : Utf16 → Utf16 :=
  Text.strip fun u => isJsSpace (char u)

end Utf16

open Utf16 (isHigh isLow)

section Quoted

def hexUnit (n : ℕ) : UInt16 :=
  .ofNat (Nat.digitChar n).toNat

-- The escape of a unit by its number.
def escapeUnit (u : UInt16) : Utf16 :=
  let n := u.toNat
  .ofText ['\\', 'u'] ++
    [hexUnit (n / 4096 % 16), hexUnit (n / 256 % 16), hexUnit (n / 16 % 16), hexUnit (n % 16)]

-- What stands for a unit that is no surrogate between quotation marks.
def quoteUnit (u : UInt16) : Utf16 :=
  match Utf16.char u with
  | '"'    => .ofText ['\\', '"']
  | '\\'   => .ofText ['\\', '\\']
  | '\x08' => .ofText ['\\', 'b']
  | '\x0c' => .ofText ['\\', 'f']
  | '\n'   => .ofText ['\\', 'n']
  | '\r'   => .ofText ['\\', 'r']
  | '\t'   => .ofText ['\\', 't']
  | _      => if u < 0x20 then escapeUnit u else [u]

-- Surrogates are escaped where they stand alone.
def quoteUnits : Utf16 → Utf16
  | []          => []
  | [u]         => if isHigh u || isLow u then escapeUnit u else quoteUnit u
  | u :: v :: s =>
    if isHigh u && isLow v then u :: v :: quoteUnits s
    else (if isHigh u || isLow u then escapeUnit u else quoteUnit u) ++ quoteUnits (v :: s)

def quote (s : Utf16) : Utf16 :=
  .ofText ['"'] ++ quoteUnits s ++ .ofText ['"']

def hexValue (u : UInt16) : Option ℕ :=
  let n := u.toNat
  if 48 ≤ n ∧ n ≤ 57 then some (n - 48)
  else if 65 ≤ n ∧ n ≤ 70 then some (n - 55)
  else if 97 ≤ n ∧ n ≤ 102 then some (n - 87)
  else none

def unescape (u : UInt16) : Option UInt16 :=
  match Utf16.char u with
  | '"'  => some 0x22
  | '\\' => some 0x5C
  | '/'  => some 0x2F
  | 'b'  => some 0x08
  | 'f'  => some 0x0C
  | 'n'  => some 0x0A
  | 'r'  => some 0x0D
  | 't'  => some 0x09
  | _    => none

def isJsonSpace (u : UInt16) : Bool :=
  u ∈ [0x20, 0x09, 0x0A, 0x0D]

-- A string from behind its opening quotation mark on, with nothing after it but white space.
def readString : Utf16 → Option Utf16
  | []     => none
  | u :: s =>
    if u = 0x22 then
      if s.all isJsonSpace then some [] else none
    else if u < 0x20 then
      none
    else if u = 0x5C then
      match s with
      | []     => none
      | e :: s =>
        if e = 0x75 then
          match s with
          | a :: b :: c :: d :: s => do
            let a ← hexValue a
            let b ← hexValue b
            let c ← hexValue c
            let d ← hexValue d
            return .ofNat (((a * 16 + b) * 16 + c) * 16 + d) :: (← readString s)
          | _ => none
        else do
          let v ← unescape e
          return v :: (← readString s)
    else
      (readString s).map (u :: ·)

end Quoted

-- A number of the language that is finite. There are two of them that are zero.
inductive JsNumber
  | negativeZero
  | finite (value : ℚ) (h : Binary64.Representable value)
  deriving DecidableEq

inductive JsonScalar
  | bool (b : Bool)
  | number (n : JsNumber)
  | string (s : Utf16)
  | null
  deriving DecidableEq

inductive LiteralError
  | empty
  | badQuoted
  | nonFinite
  | tooLong
  deriving DecidableEq

section Numbers

-- An exponent, if there is one, and then the end.
def isJsonExponent (l : List Char) : Bool :=
  (Text.exponent l).isSome

def isJsonNumber (l : List Char) : Bool :=
  let l := if l.head? = some '-' then l.tail else l
  let (whole, rest) := l.span Char.isDigit
  (whole = ['0'] || whole.head?.any (· ≠ '0')) &&
    match rest with
    | '.' :: rest =>
      let (part, rest) := rest.span Char.isDigit
      part ≠ [] && isJsonExponent rest
    | rest => isJsonExponent rest

-- A number that is rounded to zero keeps its sign.
def jsNumber (l : List Char) : Option JsNumber :=
  match Text.decimal l with
  | none   => none
  | some q =>
    match h : Binary64.nearest q with
    | none   => none
    | some r =>
      if r = 0 ∧ l.head? = some '-' then some .negativeZero
      else some (.finite r (Binary64.representable_of_nearest h))

def JsNumber.text : JsNumber → List Char
  | negativeZero => ['0']
  | finite q _   => Binary64.text q

end Numbers

def valueTooLong (s : Utf16) : Bool :=
  pickValueMaxChars < s.codePoints

def parseValueLiteral (text : Utf16) : Except LiteralError JsonScalar :=
  let t := text.trim
  if t = [] then
    .error .empty
  else if t.head? = some 0x22 then
    match readString t.tail with
    | none   => .error .badQuoted
    | some v => if valueTooLong v then .error .tooLong else .ok (.string v)
  else if t = .ofText "true".toList then
    .ok (.bool true)
  else if t = .ofText "false".toList then
    .ok (.bool false)
  else if t = .ofText "null".toList then
    .ok .null
  else if isJsonNumber (t.map Utf16.char) then
    match jsNumber (t.map Utf16.char) with
    | none   => .error .nonFinite
    | some n => .ok (.number n)
  else if valueTooLong t then
    .error .tooLong
  else
    .ok (.string t)

def formatValueLiteral : JsonScalar → Utf16
  | .bool b   => .ofText (toString b).toList
  | .number n => .ofText n.text
  | .null     => .ofText "null".toList
  | .string s =>
    match parseValueLiteral s with
    | .ok (.string v) => if v = s then s else quote s
    | _               => quote s

end Ui
