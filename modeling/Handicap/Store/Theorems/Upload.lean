import Handicap.Library.Renaming
import Handicap.Store.Upload

-- No column of an uploaded table is lost, unless a numbered name meets a name of the header.
namespace Store

open Renaming

variable {json : JsonObjects} {header columns cells base : List String} {i : ℕ}

theorem toString_injective {m n : ℕ} (h : (toString m).toList = (toString n).toList) : m = n := by
  have hd := congrArg (fun digits => Nat.ofDigitChars 10 digits 0) h
  simpa using hd

theorem underscore_not_mem {n : ℕ} : '_' ∉ (toString n).toList.reverse := by
  simp [Nat.underscore_not_in_toDigits]

-- The number begins after the last underscore.
theorem suffixed_injective {a b : String} {m n : ℕ} (h : suffixed a m = suffixed b n) :
    a = b ∧ m = n := by
  have hl {c : String} {k : ℕ} : (suffixed c k).toList.reverse =
      (toString k).toList.reverse ++ '_' :: c.toList.reverse := by
    simp [suffixed]
  have ha := Text.cut_one.mpr ⟨@hl a m, underscore_not_mem⟩
  have hb := Text.cut_one.mpr ⟨@hl b n, underscore_not_mem⟩
  rw [h, hb, Option.some.injEq, Prod.mk.injEq] at ha
  exact ⟨String.toList_injective (List.reverse_injective ha.right.symm),
    toString_injective (List.reverse_injective ha.left.symm)⟩

theorem suffixed_readable : Readable suffixed where
  injective := suffixed_injective
  ne {a n} h := by
    have hl := congrArg String.length h
    have hu : "_".length = 1 := rfl
    simp [suffixed] at hl
    omega

theorem colName_injective : Function.Injective colName := by
  intro m n h
  have hl := congrArg String.toList h
  rw [colName, colName, String.toList_append, String.toList_append] at hl
  exact toString_injective (List.append_cancel_left hl)

-- The names of the columns before their repetitions are numbered.
def headerNames (header : List String) : List String :=
  header.mapIdx baseName

theorem normalizeFrom_eq {seen : Table String ℕ} {pre : List String}
    (h : ∀ b, (seen.lookup b).getD 0 = pre.count b) :
    normalizeFrom seen i header =
      (occurrences pre (header.mapIdx fun j => baseName (i + j))).map (numbered suffixed) := by
  induction header generalizing seen pre i
  case nil => rfl
  case cons name header ih =>
    have hu (b : String) : ((seen.update (baseName i name) 0 (· + 1)).lookup b).getD 0 =
        (baseName i name :: pre).count b := by
      by_cases hb : b = baseName i name
      case pos => subst hb; simp [Table.update, h]
      case neg => simp [Table.update, AList.lookup_insert_ne hb, h, Ne.symm hb]
    rw [normalizeFrom, ih hu, List.mapIdx_cons, occurrences, List.map_cons, numbered, hu]
    simp [Nat.add_assoc, Nat.add_comm 1]

theorem normalizeColumns_eq :
    normalizeColumns header = (occurrences [] (headerNames header)).map (numbered suffixed) := by
  have he := @normalizeFrom_eq header 0 ∅ [] fun b => by simp
  simpa [normalizeColumns, headerNames] using he

-- No numbered repetition of a name is itself a name of the header.
def Unambiguous (header : List String) : Prop :=
  ∀ name count, 2 ≤ count → count ≤ (headerNames header).count name →
    suffixed name count ∉ headerNames header

theorem normalizeColumns_nodup_iff : (normalizeColumns header).Nodup ↔ Unambiguous header := by
  rw [normalizeColumns_eq, numbered_nodup_iff suffixed_readable, Unambiguous]

section Rows

variable {map : StringMap} {col : String} {record : List String} {k : ℕ}

theorem foldl_lookup_of_notMem (h : col ∉ columns) :
    ((columns.zipIdx k).foldl (fun map p => map.insert p.1 (cells[p.2]?.getD "")) map).lookup col =
      map.lookup col := by
  induction columns generalizing k map
  case nil => rfl
  case cons c columns ih =>
    obtain ⟨hc, h⟩ := not_or.mp (List.mem_cons.not.mp h)
    rw [List.zipIdx_cons, List.foldl_cons, ih h, AList.lookup_insert_ne hc]

theorem foldl_lookup (hc : columns.Nodup) (hi : columns[i]? = some col) :
    ((columns.zipIdx k).foldl (fun map p => map.insert p.1 (cells[p.2]?.getD "")) map).lookup col =
      some (cells[k + i]?.getD "") := by
  induction columns generalizing i k map
  case nil => simp at hi
  case cons c columns ih =>
    obtain ⟨hn, hc⟩ := List.nodup_cons.mp hc
    rw [List.zipIdx_cons, List.foldl_cons]
    cases i
    case zero =>
      rw [List.getElem?_cons_zero, Option.some.injEq] at hi
      rw [← hi, foldl_lookup_of_notMem hn, AList.lookup_insert, Nat.add_zero]
    case succ i =>
      rw [ih hc (by simpa using hi), Nat.add_right_comm, Nat.add_assoc]

theorem rowMap_lookup (hc : columns.Nodup) (hi : columns[i]? = some col) :
    (rowMap columns cells).lookup col = some (cells[i]?.getD "") := by
  rw [rowMap, foldl_lookup hc hi, Nat.zero_add]

theorem resize_getElem? (hi : i < k) : (resize k record)[i]?.getD "" = record[i]?.getD "" := by
  rw [resize, List.getElem?_append, List.length_take]
  split
  case isTrue hl => rw [List.getElem?_take_of_lt hi]
  case isFalse hl =>
    rw [List.getElem?_eq_none (show record.length ≤ i by omega), List.getElem?_replicate]
    split <;> rfl

-- A stored row has the cell of each column under the column's name, empty where the row is short.
def Keeps (columns record : List String) (row : StringMap) : Prop :=
  ∀ (i : ℕ) (col : String), columns[i]? = some col → row.lookup col = some (record[i]?.getD "")

theorem keeps_readRow (hj : json.Reads (rowMap columns (resize columns.length record)))
    (hc : columns.Nodup) :
    Keeps columns record (readRow json (rowToJson json columns (resize columns.length record))) := by
  intro i col hi
  obtain ⟨map, hm, hl⟩ := hj
  have hlt := (List.getElem?_eq_some_iff.mp hi).choose
  rw [readRow, rowToJson, hm, Option.getD_some, hl, rowMap_lookup hc hi, resize_getElem? hlt]

end Rows

section Build

variable {records : List (List String)} {hasHeader : Bool} {sheets : Option (List String)}

-- The rows of the table below its header.
def dataRecords (records : List (List String)) (hasHeader : Bool) : List (List String) :=
  if hasHeader then records.tail else records

theorem build_rows :
    (build records hasHeader sheets).rows = (dataRecords records hasHeader).map
      (resize (build records hasHeader sheets).columns.length) := by
  cases records
  case nil => simp [build, dataRecords]
  case cons header below => simp [build, dataRecords]

-- Columns that are named by their positions are distinct, and those of a header are unless it is
-- ambiguous.
theorem build_columns_nodup_iff :
    (build records hasHeader sheets).columns.Nodup ↔
      (hasHeader → ∀ header ∈ records.head?, Unambiguous header) := by
  cases records
  case nil => simp [build]
  case cons header below =>
    cases hasHeader
    case true => simp [build, normalizeColumns_nodup_iff]
    case false =>
      have hi : Function.Injective fun i => colName (i + 1) :=
        colName_injective.comp (add_left_injective 1)
      simp [build, List.nodup_range.map hi]

-- The columns are distinct and every range of the stored rows has all cells of the table.
def NoColumnLost (json : JsonObjects) (records : List (List String)) (hasHeader : Bool)
    (sheets : Option (List String)) : Prop :=
  let parsed := build records hasHeader sheets
  parsed.columns.Nodup ∧ ∀ startIdx limit, List.Forall₂ (Keeps parsed.columns)
    (((dataRecords records hasHeader).drop startIdx).take limit)
    (readRowsRange json (insertRows json parsed.columns parsed.rows) startIdx limit)

theorem noColumnLost_iff (records : List (List String)) (hasHeader : Bool)
    (sheets : Option (List String))
    (hj : ∀ row ∈ (build records hasHeader sheets).rows,
      json.Reads (rowMap (build records hasHeader sheets).columns row)) :
    NoColumnLost json records hasHeader sheets ↔
      (hasHeader → ∀ header ∈ records.head?, Unambiguous header) := by
  rw [build_columns_nodup_iff.symm]
  refine ⟨And.left, fun hc => ⟨hc, fun startIdx limit => ?_⟩⟩
  rw [readRowsRange, insertRows, getRowsRange, build_rows, List.map_map, List.map_map,
    ← List.map_drop, ← List.map_take, List.forall₂_map_right_iff]
  refine List.forall₂_same.mpr fun record hr => keeps_readRow (hj _ ?_) hc
  rw [build_rows]
  exact List.mem_map_of_mem (List.mem_of_mem_drop (List.mem_of_mem_take hr))

-- A name that is repeated, a short row and a long one.
def repeatedNames : List (List String) :=
  [["id", "id", "note"], ["7"], ["8", "9", "x", "extra"]]

-- The texts of the two rows.
def repeatedNamesJson : JsonObjects where
  print map :=
    if map.lookup "id" = some "7" then
      "\x7b\"id\":\"7\",\"id_2\":\"\",\"note\":\"\"\x7d"
    else
      "\x7b\"id\":\"8\",\"id_2\":\"9\",\"note\":\"x\"\x7d"
  read text :=
    if text = "\x7b\"id\":\"7\",\"id_2\":\"\",\"note\":\"\"\x7d" then
      some (rowMap ["id", "id_2", "note"] ["7", "", ""])
    else
      some (rowMap ["id", "id_2", "note"] ["8", "9", "x"])

theorem noColumnLost_iff_repeated :
    NoColumnLost repeatedNamesJson repeatedNames true none ↔
      (true → ∀ header ∈ repeatedNames.head?, Unambiguous header) := by
  have hc : (build repeatedNames true none).columns = ["id", "id_2", "note"] := by decide
  have hr : (build repeatedNames true none).rows = [["7", "", ""], ["8", "9", "x"]] := by decide
  refine noColumnLost_iff repeatedNames true none fun row hm => ?_
  rw [hr] at hm
  rw [hc]
  obtain rfl | hm := List.mem_cons.mp hm
  case inl => exact ⟨_, rfl, fun _ => rfl⟩
  case inr =>
    obtain rfl := List.mem_singleton.mp hm
    exact ⟨_, rfl, fun _ => rfl⟩

-- The second column is renamed to the literal name of the third, which takes its place in each row.
theorem suffixed_column_lost :
    ¬NoColumnLost
        ⟨fun _ => "\x7b\"a\":\"1\",\"a_2\":\"3\"\x7d",
          fun _ => some (rowMap ["a", "a_2"] ["1", "3"])⟩
        [["a", "a", "a_2"], ["1", "2", "3"]] true none := by
  intro h
  have hc := h.left
  revert hc
  decide

end Build

end Store
