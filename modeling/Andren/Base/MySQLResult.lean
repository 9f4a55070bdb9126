import Andren.Base.Zlib
import Andren.Machine.Carry
import Andren.Machine.Decimal
import Andren.Machine.Fields

/-!
# Results of MySQL queries

`cover` takes over a result set: the names of its columns into a map from name to number,
and each row with its cells converted from text by the type of their column.

The map has one entry for each name, so the names come back as they were if and only if none
is there twice (`fields_cover_iff`).
-/

namespace Andren.Base

open Machines
open Std (TreeMap)

-- ---------------------------------------------------------------------------
-- Values
-- ---------------------------------------------------------------------------

inductive Level
  | date
  | time
  | dateTime
  | year
  deriving DecidableEq

inductive TimeValue
  | timePoint (t : Int)
  | seconds (s : Int)
  | string (s : Bytes)
  deriving DecidableEq

/-- `level` is `none` where the member was not written. -/
structure MySQLDateTime where
  timeValue : TimeValue
  level : Option Level
  deriving DecidableEq

structure MySQLDecimal where
  decimalValue : Bytes
  deriving DecidableEq

/-- A double is given by its bits. -/
inductive Value
  | int64 (n : Int)
  | uint64 (n : Nat)
  | double (bits : UInt64)
  | string (s : Bytes)
  | dateTime (t : MySQLDateTime)
  | decimal (d : MySQLDecimal)
  deriving DecidableEq

def TimeValue.moved : TimeValue → TimeValue
  | .string _ => .string []
  | x => x

def Value.moved : Value → Value
  | .string _ => .string []
  | .dateTime t => .dateTime { t with timeValue := t.timeValue.moved }
  | .decimal _ => .decimal ⟨[]⟩
  | x => x

-- ---------------------------------------------------------------------------
-- Parsing
-- ---------------------------------------------------------------------------

structure Tm where
  tm_sec : Int
  tm_min : Int
  tm_hour : Int
  tm_mday : Int
  tm_mon : Int
  tm_year : Int

/-- Parsers that go by the locale and the time zone. `stod` is `none` where it throws. -/
structure Parsers where
  stod : Bytes → Option UInt64
  get_time : String → Bytes → Tm
  mktime : Tm → Int

def convertStringToDate (lib : Parsers) (dateString : Bytes) : Int :=
  lib.mktime (lib.get_time "%Y-%m-%d" dateString)

def convertStringToTime (lib : Parsers) (timeString : Bytes) : Int :=
  let tm := lib.get_time "%H:%M:%S" timeString
  tm.tm_hour * 3600 + tm.tm_min * 60 + tm.tm_sec

def isSpace (b : UInt8) : Bool := b == 32 || (9 ≤ b && b ≤ 13)

theorem isSpace_of_isDigit (h : IsDigit b) : isSpace b = false := by
  obtain ⟨hlo, hhi⟩ := h
  simp only [isSpace, Bool.or_eq_false_iff, beq_eq_false_iff_ne, ne_eq, ← UInt8.toNat_inj, Bool.and_eq_false_imp,
    decide_eq_true_eq, decide_eq_false_iff_not, UInt8.le_iff_toNat_le, UInt8.reduceToNat]
  omega

def digitsValue (digits : Bytes) : Nat := digits.foldl (fun n b => 10 * n + (b.toNat - 48)) 0

def splitSign : Bytes → Bool × Bytes
  | 45 :: text => (true, text)
  | 43 :: text => (false, text)
  | text => (false, text)

def signed (minus : Bool) (n : Nat) : Int := if minus then -n else n

def LLONG_MIN : Int := -9223372036854775808

def LLONG_MAX : Int := 9223372036854775807

/-- `std::stoll`: what is behind the digits is not read. It throws without digits and for
a number that is none of `int64_t`. -/
def stoll (str : Bytes) : Option Int :=
  let (minus, text) := splitSign (str.dropWhile isSpace)
  let digits := text.takeWhile (IsDigit ·)
  let n := signed minus (digitsValue digits)
  if digits = [] then none else if LLONG_MIN ≤ n ∧ n ≤ LLONG_MAX then some n else none

/-- The parameter `level` hides the member of that name. -/
def MySQLDateTime.new (lib : Parsers) (value : Bytes) (level : Level) : MySQLDateTime :=
  match level with
  | .date => ⟨.timePoint (convertStringToDate lib value), none⟩
  | .time => ⟨.seconds (convertStringToTime lib value), none⟩
  | .dateTime | .year => ⟨.string value, none⟩

-- ---------------------------------------------------------------------------
-- Result sets
-- ---------------------------------------------------------------------------

inductive FieldType
  | decimal
  | tiny
  | short
  | long
  | float
  | double
  | null
  | timestamp
  | longLong
  | int24
  | date
  | time
  | dateTime
  | year
  | newDate
  | varChar
  | bit
  | json
  | newDecimal
  | enum
  | set
  | tinyBlob
  | mediumBlob
  | longBlob
  | blob
  | varString
  | string
  | geometry
  deriving DecidableEq

structure MysqlField where
  name : String
  type : FieldType
  deriving DecidableEq

/-- NULL is `none`. -/
abbrev Cell := Option Bytes

/-- The rows that were not fetched yet, each with a cell for every column. -/
structure MysqlRes where
  fields : List MysqlField
  rows : List (List Cell)
  wide : ∀ row ∈ rows, row.length = fields.length

def MysqlRes.names (res : MysqlRes) : List String := res.fields.map (·.name)

def MysqlRes.table (res : MysqlRes) : List (List (FieldType × Cell)) :=
  res.rows.map ((res.fields.map (·.type)).zip ·)

-- ---------------------------------------------------------------------------
-- `MySQLResult`
-- ---------------------------------------------------------------------------

structure MySQLResult where
  fieldMap : TreeMap String Nat
  rows : List (List Value)

/-- The `switch` over the type of a column, `none` where a parser throws. -/
def convert (lib : Parsers) (type : FieldType) (buffer : Bytes) (value : Value) : Option Value :=
  match type with
  | .tiny | .short | .long | .longLong => (stoll buffer).map .int64
  | .float | .double => (lib.stod buffer).map .double
  | .decimal => some (.decimal ⟨buffer⟩)
  | .string | .varString => some (.string buffer)
  | .date => some (.dateTime (.new lib buffer .date))
  | .time => some (.dateTime (.new lib buffer .time))
  | .dateTime => some (.dateTime (.new lib buffer .dateTime))
  | .year => some (.dateTime (.new lib buffer .year))
  | .blob | .tinyBlob | .longBlob | .mediumBlob => some (.string buffer)
  | _ => some value

/-- The pass over a cell: what is put into the row, and what the move leaves in `value`. The
buffer is written anew for each cell. -/
def coverCell (lib : Parsers) (value : Value) (e : FieldType × Cell) : Option (Value × Value) :=
  (convert lib e.1 (e.2.getD []) value).map fun value => (value, value.moved)

namespace MySQLResult

/-- The second component tells whether an exception ends it. The row is lost then, the rows
before it are not. -/
def cover (lib : Parsers) (_ : MySQLResult) (res : MysqlRes) : MySQLResult × Bool :=
  let fieldMap := putAll ∅ res.names.zipIdx
  let (rows, last) := carry (carryAll (coverCell lib)) (.int64 0) res.table
  (⟨fieldMap, rows⟩, last.isNone)

/-- `none` where an index is out of range. -/
def fields (r : MySQLResult) : Option (List String) :=
  if r.fieldMap.isEmpty then some []
  else placeAll (List.replicate r.fieldMap.size "") r.fieldMap.toList

def value? (r : MySQLResult) (row col : Nat) : Option Value := r.rows[row]?.bind (·[col]?)

-- ---------------------------------------------------------------------------
-- The names of the columns
-- ---------------------------------------------------------------------------

section

variable {lib : Parsers} {r : MySQLResult} {res : MysqlRes} {name : String} {i : Nat}

theorem fieldMap_cover : (r.cover lib res).1.fieldMap = putAll ∅ res.names.zipIdx := rfl

theorem size_fieldMap_cover : (r.cover lib res).1.fieldMap.size = res.names.dedup.length := by
  rw [fieldMap_cover, size_putAll, List.zipIdx_map_fst]

theorem getElem?_of_fieldMap (h : (r.cover lib res).1.fieldMap[name]? = some i) : res.names[i]? = some name := by
  rw [fieldMap_cover, getElem?_putAll, TreeMap.getElem?_emptyc, Option.or_none] at h
  exact List.mem_zipIdx_iff_getElem?.mp (mem_of_lastValue h)

theorem fieldMap_of_nodup (h : res.names.Nodup) (hi : res.names[i]? = some name) :
    (r.cover lib res).1.fieldMap[name]? = some i := by
  have hmem : name ∈ (r.cover lib res).1.fieldMap := by
    rw [fieldMap_cover, mem_putAll, List.zipIdx_map_fst]
    exact List.mem_of_getElem? hi
  obtain ⟨j, hj⟩ := Option.isSome_iff_exists.mp (TreeMap.isSome_getElem?_iff_mem.mpr hmem)
  have hname := getElem?_of_fieldMap hj
  rw [hj]
  exact congrArg some ((List.getElem?_inj (List.getElem?_eq_some_iff.mp hname).1 h).mp (hname.trans hi.symm))

/-- `fields` returns the columns in order if and only if no name is there twice. -/
theorem fields_cover_iff (lib : Parsers) (r : MySQLResult) (res : MysqlRes) :
    (r.cover lib res).1.fields = some res.names ↔ res.names.Nodup := by
  constructor
  · intro h
    have hlen : res.names.dedup.length = res.names.length := by
      unfold fields at h
      split at h
      next => simp [← Option.some.inj h]
      next => rw [length_placeAll h, List.length_replicate, size_fieldMap_cover]
    exact List.dedup_eq_self.mp ((List.dedup_sublist _).length_eq.mp hlen)
  · intro h
    have hlen : (r.cover lib res).1.fieldMap.size = res.names.length := by
      rw [size_fieldMap_cover, List.dedup_eq_self.mpr h]
    unfold fields
    split
    next hempty =>
      rw [TreeMap.isEmpty_eq_size_eq_zero, hlen, beq_iff_eq] at hempty
      rw [List.length_eq_zero_iff.mp hempty]
    next =>
      refine placeAll_of_agree ?_ (by rw [List.length_replicate, hlen]) fun i name hi => .inl ?_
      · rintro ⟨name, i⟩ hmem
        exact getElem?_of_fieldMap (TreeMap.mem_toList_iff_getElem?_eq_some.mp hmem)
      · exact TreeMap.mem_toList_iff_getElem?_eq_some.mpr (fieldMap_of_nodup h hi)

end

/-- A join of two tables that each have a column "id": the second one is written behind the end. -/
theorem fields_of_join : ∃ res : MysqlRes, res.names = ["id", "id"] ∧
    ∀ lib r, (cover lib r res).1.fields = none ∧ (cover lib r res).1.fields ≠ some res.names :=
  ⟨⟨[⟨"id", .long⟩, ⟨"id", .long⟩], [], nofun⟩, rfl, fun _ _ => ⟨rfl, nofun⟩⟩

end MySQLResult

end Andren.Base
