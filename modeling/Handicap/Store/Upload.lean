import Handicap.Library.Table
import Handicap.Library.Text
import Handicap.Store.Profile

-- An uploaded table: its columns get names, its rows the width of the header, and every row is
-- stored as the text of an object that has the columns as its keys.
namespace Store

structure ParsedDataset where
  columns : List String
  rows    : List (List String)
  sheets  : Option (List String)

def colName (i : ℕ) : String :=
  "col" ++ toString i

-- The name of a column before its repetitions are numbered.
def baseName (i : ℕ) (name : String) : String :=
  let name := Text.trim isWhiteSpace name
  if name.isEmpty then colName (i + 1) else name

def suffixed (base : String) (count : ℕ) : String :=
  base ++ "_" ++ toString count

def normalizeFrom (seen : Table String ℕ) (i : ℕ) : List String → List String
  | []          => []
  | name :: raw =>
    let base := baseName i name
    let seen := seen.update base 0 (· + 1)
    let count := (seen.lookup base).getD 0
    let column := if count = 1 then base else suffixed base count
    column :: normalizeFrom seen (i + 1) raw

def normalizeColumns (raw : List String) : List String :=
  normalizeFrom ∅ 0 raw

-- A short row is filled up with empty cells, a long one is cut.
def resize (width : ℕ) (cells : List String) : List String :=
  cells.take width ++ List.replicate (width - cells.length) ""

def build (records : List (List String)) (hasHeader : Bool) (sheets : Option (List String)) :
    ParsedDataset :=
  match records with
  | []              => { columns := [], rows := [], sheets }
  | header :: below =>
    let columns :=
      if hasHeader then
        normalizeColumns header
      else
        let ncols := ((header :: below).map List.length).max?.getD 0
        (List.range ncols).map fun i => colName (i + 1)
    let records := if hasHeader then below else header :: below
    { columns, rows := records.map (resize columns.length), sheets }

-- The printer and the reader of objects of strings.
structure JsonObjects where
  print : StringMap → String
  read  : String → Option StringMap

-- The printed map is read back with the same fields.
def JsonObjects.Reads (json : JsonObjects) (map : StringMap) : Prop :=
  ∃ map', json.read (json.print map) = some map' ∧ ∀ key, map'.lookup key = map.lookup key

-- A repeated column replaces the cell of the one before.
def rowMap (columns cells : List String) : StringMap :=
  columns.zipIdx.foldl (fun map p => map.insert p.1 (cells[p.2]?.getD "")) ∅

variable (json : JsonObjects)

def rowToJson (columns cells : List String) : String :=
  json.print (rowMap columns cells)

-- The rows of a dataset, in the order of their numbers.
def insertRows (columns : List String) (rows : List (List String)) : List String :=
  rows.map (rowToJson json columns)

def readRow (rowJson : String) : StringMap :=
  (json.read rowJson).getD ∅

-- Up to `limit` rows from the given position on, read back from their texts.
def readRowsRange (stored : List String) (startIdx limit : ℕ) : List StringMap :=
  getRowsRange (stored.map (readRow json)) startIdx limit

end Store
