import Handicap.Library.Text

-- The positions of a picked array, as the editor reads them. A number is a finite one.
namespace Ui

def pickArrayMaxLen   := 1000
def positionsMaxChars := 4096
def pickValueMaxChars := 64

def pickValueTooLong (s : String) : Bool :=
  pickValueMaxChars < s.length

def isPickLength (n : ℚ) : Bool :=
  n.isInt && 1 ≤ n && n ≤ pickArrayMaxLen

inductive PositionsError
  | badLength
  | tooLong
  | badItem (index : ℕ)
  | outOfRange (index : ℕ)
  | reversed (index : ℕ)
  deriving DecidableEq

-- A text is as long as its UTF-16 encoding.
def utf16Length (s : List Char) : ℕ :=
  (s.map fun c => if 0x10000 ≤ c.toNat then 2 else 1).sum

-- One to four digits.
def isNum (s : List Char) : Bool :=
  1 ≤ s.length && s.length ≤ 4 && s.all Char.isDigit

def trimAscii : List Char → List Char :=
  Text.strip fun c => c ∈ [' ', '\t', '\n', '\r', '\x0c']

def markItems (length : ℕ) :
    ℕ → (ℕ → Bool) → List (List Char) → Except PositionsError (ℕ → Bool)
  | _, mark, []              => .ok mark
  | index, mark, raw :: raws =>
    let item := trimAscii raw
    let dash := item.idxOf '-'
    let (x, y) :=
      if dash = item.length then (item, item) else (item.take dash, item.drop (dash + 1))
    let xs := trimAscii x
    let ys := trimAscii y
    if ¬isNum xs ∨ ¬isNum ys then
      .error (.badItem index)
    else
      let a := Text.digitsValue xs
      let b := Text.digitsValue ys
      if b < a then .error (.reversed index)
      else if a < 1 ∨ length < b then .error (.outOfRange index)
      else markItems length (index + 1) (fun p => mark p || (a ≤ p && p ≤ b)) raws

def parsePositions (text : String) (length : ℚ) : Except PositionsError (List ℕ) :=
  if ¬isPickLength length then
    .error .badLength
  else if positionsMaxChars < utf16Length text.toList then
    .error .tooLong
  else if trimAscii text.toList = [] then
    .ok []
  else
    let length := length.num.toNat
    (markItems length 1 (fun _ => false) (text.toList.splitOn ',')).map fun mark =>
      (List.range' 1 length).filter mark

def candidatesOf (length : ℚ) (positions : Option String) : Option (List ℕ) :=
  if ¬isPickLength length then
    none
  else
    match positions with
    | none      => some (List.range' 1 length.num.toNat)
    | some text => (parsePositions text length).toOption

end Ui
