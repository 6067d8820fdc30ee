import Handicap.Library.JsonPathText
import Handicap.Library.Table
import Handicap.Library.Utf8
import Handicap.Ui.Store

-- The bulk editor of headers and form fields.
namespace Ui

inductive BulkFormat
  | header
  | form
  deriving DecidableEq

-- A record is a table. The order of its entries is left open.
structure ParseResult where
  entries : Table String String
  skipped : ℕ

-- The bytes of a text and of its escapes. Where escapes are not the bytes of characters, they are
-- not among the bytes of the text either.
def percentBytes : List Char → Option (List UInt8)
  | []                => some []
  | '%' :: a :: b :: l => do
    let byte := (← JsonPath.hexDigit a) * 16 + (← JsonPath.hexDigit b)
    return .ofNat byte :: (← percentBytes l)
  | c :: l            => do
    if c = '%' then none
    return String.utf8EncodeChar c ++ (← percentBytes l)

def decodeURIComponent (s : List Char) : Option (List Char) :=
  (percentBytes s).bind Utf8.decode

-- What cannot be decoded stays as it is.
def decodeFormToken (s : List Char) : List Char :=
  let plusDecoded := s.map fun c => if c = '+' then ' ' else c
  (decodeURIComponent plusDecoded).getD plusDecoded

def BulkFormat.separator : BulkFormat → Char
  | header => ':'
  | form   => '='

def BulkFormat.endsPair (format : BulkFormat) (c : Char) : Bool :=
  c = '\n' || format = .form && c = '&'

def BulkFormat.read (format : BulkFormat) (token : List Char) : String :=
  let token := Text.strip isJsSpace token
  .ofList (if format = .form then decodeFormToken token else token)

-- An assignment to the prototype of an object is without effect, as the value is not an object.
def assign (out : Table String String) (key value : String) : Table String String :=
  if key = "__proto__" then out else out.insert key value

def putEntry (r : ParseResult) (e : String × String) : ParseResult :=
  if e.1 = "" then { r with skipped := r.skipped + 1 }
  else { r with entries := assign r.entries e.1 e.2 }

def parsePair (format : BulkFormat) (r : ParseResult) (raw : List Char) : ParseResult :=
  let line := Text.strip isJsSpace raw
  if line = [] then r
  else
    match Text.cut [format.separator] line with
    | none              => { r with skipped := r.skipped + 1 }
    | some (key, value) => putEntry r (format.read key, format.read value)

def parseBulk (text : String) (format : BulkFormat) : ParseResult :=
  (text.toList.splitOnP format.endsPair).foldl (parsePair format) ⟨∅, 0⟩

def replaceChar (c : Char) (text : String) (s : List Char) : List Char :=
  s.flatMap fun d => if d = c then text.toList else [d]

def escapeSpaces (s : List Char) : List Char :=
  s.flatMap fun _ => "%20".toList

-- The percent sign comes first, so that escapes are not escaped. Spaces are escaped at the ends.
def escapeFormToken (s : List Char) (isKey : Bool) : List Char :=
  let out := replaceChar '\n' "%0A" (replaceChar '&' "%26"
    (replaceChar '+' "%2B" (replaceChar '%' "%25" s)))
  let out := if isKey then replaceChar '=' "%3D" out else out
  let out := escapeSpaces (out.takeWhile (· = ' ')) ++ out.dropWhile (· = ' ')
  out.rdropWhile (· = ' ') ++ escapeSpaces (out.rtakeWhile (· = ' '))

def formatEntry (format : BulkFormat) (e : String × String) : List Char :=
  match format with
  | .form   => escapeFormToken e.1.toList true ++ '=' :: escapeFormToken e.2.toList false
  | .header => e.1.toList ++ ':' :: ' ' :: e.2.toList

def formatEntries (entries : Table String String) (format : BulkFormat) : String :=
  .ofList (['\n'].intercalate (entries.toList.map (formatEntry format)))

end Ui
