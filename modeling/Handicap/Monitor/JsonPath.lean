import Mathlib.Data.Nat.Notation

-- The JSON paths that are simple enough to be evaluated at every check.
namespace Monitor

def isNameFirst (c : Char) : Bool :=
  c.isAlpha || c = '_' || 0x80 ≤ c.toNat

-- What comes after a name.
def simpleName (first : Char) (path : List Char) : Option (List Char) :=
  if isNameFirst first then some (path.dropWhile fun c => isNameFirst c || c.isDigit) else none

-- What comes after a text up to its quotation mark.
def simpleQuoted (quote : Char) : List Char → Option (List Char)
  | []             => none
  | ['\\']         => none
  | '\\' :: _ :: l => simpleQuoted quote l
  | c :: l         => if c = quote then some l else simpleQuoted quote l

-- The last character of a bracket.
def closed : List Char → Option (List Char)
  | ']' :: l => some l
  | _        => none

-- What comes after one name, one number or a star in brackets.
def simpleBracket : List Char → Option (List Char)
  | []     => none
  | c :: l =>
    if c = '*' then
      closed l
    else if c = '\'' ∨ c = '"' then
      (simpleQuoted c l).bind closed
    else if c = '-' ∨ c.isDigit then
      let digits := l.takeWhile Char.isDigit
      if c = '-' ∧ digits = [] then none else closed (l.drop digits.length)
    else
      none

-- What comes after the dots of a segment.
def simpleMember : List Char → Option (List Char)
  | []       => none
  | '*' :: l => some l
  | c :: l   => simpleName c l

def simpleDescendant : List Char → Option (List Char)
  | '[' :: l => simpleBracket l
  | l        => simpleMember l

-- Every segment takes a character, and at most one of them may descend.
def simpleSegments : ℕ → Bool → List Char → Bool
  | _, _, []        => true
  | 0, _, _         => false
  | fuel + 1, descended, '.' :: '.' :: l =>
    !descended && ((simpleDescendant l).map (simpleSegments fuel true)).getD false
  | fuel + 1, descended, '.' :: l =>
    ((simpleMember l).map (simpleSegments fuel descended)).getD false
  | fuel + 1, descended, '[' :: l =>
    ((simpleBracket l).map (simpleSegments fuel descended)).getD false
  | _ + 1, _, _     => false

def jsonpathIsSimple (path : String) : Bool :=
  match path.toList with
  | '$' :: l => simpleSegments l.length false l
  | _        => false

end Monitor
