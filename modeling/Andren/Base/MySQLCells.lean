import Andren.Base.MySQLResult
import Mathlib.Data.FinEnum
import Mathlib.Data.List.TakeWhile

/-!
# Cells of a MySQL result

The value for a cell is converted from its text where the `switch` has a case for the type of
the column; for any other type it is what the cell before it has left. So a cell speaks for
itself if and only if its type has a case and is no date or time, whose `level` is never
written (`own_cell_iff`), and numbers come through if and only if they can be parsed and what
is left of the cell before happens to be right (`result_converted_iff`).
-/

namespace Andren.Base

open Machines

-- ---------------------------------------------------------------------------
-- The cases of the `switch`
-- ---------------------------------------------------------------------------

inductive FieldType.Kind
  | stoll
  | stod
  | text
  | dateTime
  | default
  deriving DecidableEq

def FieldType.kind : FieldType → Kind
  | .tiny | .short | .long | .longLong => .stoll
  | .float | .double => .stod
  | .decimal | .string | .varString | .blob | .tinyBlob | .longBlob | .mediumBlob => .text
  | .date | .time | .dateTime | .year => .dateTime
  | _ => .default

section

variable {lib : Parsers} {type : FieldType}

theorem convert_stoll (h : type.kind = .stoll) (buffer : Bytes) (value : Value) :
    convert lib type buffer value = (stoll buffer).map .int64 := by
  cases type <;> first | rfl | cases h

theorem convert_stod (h : type.kind = .stod) (buffer : Bytes) (value : Value) :
    convert lib type buffer value = (lib.stod buffer).map .double := by
  cases type <;> first | rfl | cases h

theorem convert_text (h : type.kind = .text) (buffer : Bytes) (value : Value) :
    convert lib type buffer value = some (if type = .decimal then .decimal ⟨buffer⟩ else .string buffer) := by
  cases type <;> first | rfl | cases h

theorem convert_dateTime (h : type.kind = .dateTime) (buffer : Bytes) (value : Value) :
    ∃ timeValue, convert lib type buffer value = some (.dateTime ⟨timeValue, none⟩) := by
  cases type <;> first | exact ⟨_, rfl⟩ | cases h

theorem convert_default (h : type.kind = .default) (buffer : Bytes) (value : Value) :
    convert lib type buffer value = some value := by
  cases type <;> first | rfl | cases h

theorem convert_eq (h : type.kind ≠ .default) (buffer : Bytes) (value value' : Value) :
    convert lib type buffer value = convert lib type buffer value' := by
  cases type <;> first | rfl | exact absurd rfl h

end

-- ---------------------------------------------------------------------------
-- A cell on its own
-- ---------------------------------------------------------------------------

def MysqlRes.cell? (res : MysqlRes) (row col : Nat) : Option (FieldType × Cell) :=
  res.table[row]?.bind (·[col]?)

def Value.Determinate : Value → Prop
  | .dateTime t => t.level ≠ none
  | _ => True

/-- Wherever a cell of the type and with this text stands, and whatever stands before it, the
value that is stored for it is the same. -/
def OwnCellOnly (lib : Parsers) (type : FieldType) (cell : Cell) : Prop :=
  ∃ v : Value, v.Determinate ∧ ∀ (r : MySQLResult) (res : MysqlRes) row col v',
    res.cell? row col = some (type, cell) → (r.cover lib res).1.value? row col = some v' → v' = v

section

variable {lib : Parsers}

theorem convert_of_value {e : FieldType × Cell} (he : res.cell? row col = some e)
    (hv : (MySQLResult.cover lib r res).1.value? row col = some v) :
    ∃ value, convert lib e.1 (e.2.getD []) value = some v := by
  obtain ⟨es, hes, he⟩ := Option.bind_eq_some_iff.mp he
  obtain ⟨vs, hvs, hv⟩ := Option.bind_eq_some_iff.mp hv
  obtain ⟨_, _, hpass⟩ := carry_getElem? hes hvs
  obtain rfl : (carry (coverCell lib) _ es).1 = vs := congrArg Prod.fst (carryAll_eq_some.mp hpass)
  obtain ⟨value, _, hcell⟩ := carry_getElem? he hv
  obtain ⟨v', hconvert, heq⟩ := Option.map_eq_some_iff.mp hcell
  cases heq
  exact ⟨value, hconvert⟩

theorem value_of_cell {type : FieldType} (h : type.kind ≠ .default) (cell : Cell) (value : Value)
    (he : res.cell? row col = some (type, cell)) (hv : (MySQLResult.cover lib r res).1.value? row col = some v) :
    convert lib type (cell.getD []) value = some v := by
  obtain ⟨value', hconvert⟩ := convert_of_value he hv
  rw [convert_eq h _ value value']
  exact hconvert

theorem determinate_of_convert {type : FieldType} (h : type.kind ≠ .default) (htime : type.kind ≠ .dateTime)
    (hv : convert lib type buffer value = some v) : v.Determinate := by
  cases hkind : type.kind with
  | stoll =>
    rw [convert_stoll hkind] at hv
    obtain ⟨n, -, rfl⟩ := Option.map_eq_some_iff.mp hv
    trivial
  | stod =>
    rw [convert_stod hkind] at hv
    obtain ⟨bits, -, rfl⟩ := Option.map_eq_some_iff.mp hv
    trivial
  | text =>
    rw [convert_text hkind] at hv
    cases hv
    split <;> trivial
  | dateTime => exact absurd hkind htime
  | default => exact absurd hkind h

end

def afterInteger (text : Bytes) (type : FieldType) (cell : Cell) : MysqlRes where
  fields := [⟨"n", .long⟩, ⟨"x", type⟩]
  rows := [[some text, cell]]
  wide := by simp

theorem value_afterInteger (lib : Parsers) (r : MySQLResult) (text : Bytes) (n : Int) (hn : stoll text = some n)
    (h : type.kind = .default) (cell : Cell) :
    (r.cover lib (afterInteger text type cell)).1.value? 0 1 = some (.int64 n) := by
  simp [MySQLResult.cover, MySQLResult.value?, afterInteger, MysqlRes.table, carry, carryAll, coverCell,
    convert_default h, convert_stoll (show FieldType.long.kind = .stoll from rfl), hn, Value.moved]

/-- A cell without a case is a 0 after a 0, and a 1 after a 1. -/
theorem not_ownCellOnly_of_default (lib : Parsers) {type : FieldType} (h : type.kind = .default) (cell : Cell) :
    ¬OwnCellOnly lib type cell := by
  rintro ⟨v, -, hall⟩
  have h0 := hall ⟨∅, []⟩ _ 0 1 _ rfl (value_afterInteger lib _ [48] 0 (by decide) h cell)
  have h1 := hall ⟨∅, []⟩ _ 0 1 _ rfl (value_afterInteger lib _ [49] 1 (by decide) h cell)
  cases h0.trans h1.symm

theorem not_ownCellOnly_of_dateTime (lib : Parsers) {type : FieldType} (h : type.kind = .dateTime) (cell : Cell) :
    ¬OwnCellOnly lib type cell := by
  rintro ⟨v, hv, hall⟩
  obtain ⟨timeValue, hconvert⟩ := @convert_dateTime lib type h (cell.getD []) (.int64 0)
  have hstored := hall ⟨∅, []⟩ ⟨[⟨"x", type⟩], [[cell]], by simp⟩ 0 0 (.dateTime ⟨timeValue, none⟩) rfl (by
    simp [MySQLResult.cover, MySQLResult.value?, MysqlRes.table, carry, carryAll, coverCell, hconvert])
  subst hstored
  exact hv rfl

/-- A cell speaks for itself if and only if its type has a case that writes all of the value. -/
theorem own_cell_iff (lib : Parsers) (type : FieldType) (cell : Cell) :
    OwnCellOnly lib type cell ↔ type.kind ≠ .default ∧ type.kind ≠ .dateTime := by
  constructor
  · intro h
    exact ⟨fun hkind => not_ownCellOnly_of_default lib hkind cell h,
      fun hkind => not_ownCellOnly_of_dateTime lib hkind cell h⟩
  · rintro ⟨hdefault, htime⟩
    cases hconvert : convert lib type (cell.getD []) (.int64 0) with
    | none =>
      refine ⟨.int64 0, trivial, fun r res row col v' he hv => ?_⟩
      cases hconvert.symm.trans (value_of_cell hdefault cell (.int64 0) he hv)
    | some v =>
      refine ⟨v, determinate_of_convert hdefault htime hconvert, fun r res row col v' he hv => ?_⟩
      exact Option.some.inj ((value_of_cell hdefault cell (.int64 0) he hv).symm.trans hconvert)

theorem mediumint_repeats :
    (afterInteger [49] .int24 (some [55])).cell? 0 1 = some (.int24, some [55]) ∧
      (afterInteger [50] .int24 (some [55])).cell? 0 1 = some (.int24, some [55]) ∧
      ∀ (lib : Parsers) (r : MySQLResult),
        (r.cover lib (afterInteger [49] .int24 (some [55]))).1.value? 0 1 = some (.int64 1) ∧
          (r.cover lib (afterInteger [50] .int24 (some [55]))).1.value? 0 1 = some (.int64 2) ∧
          ¬OwnCellOnly lib .int24 (some [55]) := by
  refine ⟨rfl, rfl, fun lib r => ⟨?_, ?_, not_ownCellOnly_of_default lib rfl _⟩⟩
  · exact value_afterInteger lib r [49] 1 (by decide) rfl _
  · exact value_afterInteger lib r [50] 2 (by decide) rfl _

-- ---------------------------------------------------------------------------
-- Numbers
-- ---------------------------------------------------------------------------

/-- The number that a text of the server is. -/
def numeral? (text : Bytes) : Option Int :=
  let (minus, digits) := splitSign text
  if digits ≠ [] ∧ ∀ b ∈ digits, IsDigit b then some (signed minus (digitsValue digits)) else none

def FieldType.range? : FieldType → Option (Int × Int)
  | .tiny => some (-128, 255)
  | .short => some (-32768, 65535)
  | .int24 => some (-8388608, 16777215)
  | .long => some (-2147483648, 4294967295)
  | .longLong => some (LLONG_MIN, 18446744073709551615)
  | _ => none

def sentNumber (e : FieldType × Cell) : Option Int := if e.1.range?.isSome then e.2.bind numeral? else none

def Value.number? : Value → Option Int
  | .int64 n => some n
  | .uint64 n => some n
  | _ => none

/-- A cell of an integer column is NULL or a number of its type. -/
def CellSent (e : FieldType × Cell) : Prop :=
  ∀ low high text, e.1.range? = some (low, high) → e.2 = some text →
    ∃ n, numeral? text = some n ∧ low ≤ n ∧ n ≤ high

def MysqlRes.Sent (res : MysqlRes) : Prop := ∀ es ∈ res.table, ∀ e ∈ es, CellSent e

def ReadsBack (e : FieldType × Cell) (v : Value) : Prop := ∀ n, sentNumber e = some n → v.number? = some n

/-- There is no exception, each row has a row of values with one for each of its cells, and
the numbers are those that were sent. -/
structure ResultConverted (res : MysqlRes) (out : MySQLResult × Bool) : Prop where
  completes : out.2 = false
  rows : List.Forall₂ (List.Forall₂ ReadsBack) res.table out.1.rows

theorem length_of_mem_table {res : MysqlRes} (h : es ∈ res.table) : es.length = res.fields.length := by
  obtain ⟨row, hrow, rfl⟩ := List.mem_map.mp h
  simp [res.wide row hrow]

theorem ResultConverted.wide (h : ResultConverted res out) : ∀ vs ∈ out.1.rows, vs.length = res.fields.length := by
  intro vs hvs
  obtain ⟨i, hi, rfl⟩ := List.getElem_of_mem hvs
  have htable : i < res.table.length := h.rows.length_eq ▸ hi
  rw [← length_of_mem_table (List.getElem_mem htable)]
  exact (h.rows.get htable hi).length_eq.symm

/-- The number that the last cell with a case has left, or the 0 from the start. -/
def lastNumber (before : List (FieldType × Cell)) : Option Int :=
  match (before.filter (·.1.kind ≠ .default)).getLast? with
  | none => some 0
  | some e => sentNumber e

/-- A cell that is parsed must be there and hold what the parser takes. A number without a
case must be the one that is left from before. -/
def CellReads (lib : Parsers) (before : List (FieldType × Cell)) (e : FieldType × Cell) : Prop :=
  match e.1.kind with
  | .stoll => ∃ n, sentNumber e = some n ∧ n ≤ LLONG_MAX
  | .stod => lib.stod (e.2.getD []) ≠ none
  | .text | .dateTime => True
  | .default => ∀ n, sentNumber e = some n → lastNumber before = some n

section

theorem splitSign_cases (text : Bytes) :
    (∃ t, text = 45 :: t) ∨ (∃ t, text = 43 :: t) ∨ splitSign text = (false, text) := by
  unfold splitSign
  split
  · exact .inl ⟨_, rfl⟩
  · exact .inr (.inl ⟨_, rfl⟩)
  · exact .inr (.inr rfl)

theorem dropWhile_isSpace (hdigits : ∀ b ∈ (splitSign text).2, IsDigit b) : text.dropWhile isSpace = text := by
  rcases splitSign_cases text with ⟨t, rfl⟩ | ⟨t, rfl⟩ | heq
  · rfl
  · rfl
  · rw [heq] at hdigits
    cases text with
    | nil => rfl
    | cons b text => exact List.dropWhile_cons_of_neg (by simp [isSpace_of_isDigit (hdigits b (.head _))])

theorem stoll_numeral (h : numeral? text = some n) :
    stoll text = if LLONG_MIN ≤ n ∧ n ≤ LLONG_MAX then some n else none := by
  obtain ⟨⟨hne, hdigits⟩, hn⟩ : ((splitSign text).2 ≠ [] ∧ ∀ b ∈ (splitSign text).2, IsDigit b) ∧
      some (signed (splitSign text).1 (digitsValue (splitSign text).2)) = some n :=
    Option.ite_none_right_eq_some.mp h
  have htake : (splitSign text).2.takeWhile (IsDigit ·) = (splitSign text).2 :=
    List.takeWhile_eq_self_iff.mpr fun b hb => decide_eq_true (hdigits b hb)
  unfold stoll
  rw [dropWhile_isSpace hdigits]
  simp only [htake, hne, if_false, Option.some.inj hn]

variable {lib : Parsers} {e : FieldType × Cell}

theorem sentNumber_eq_none (h : e.1.kind = .stod ∨ e.1.kind = .text ∨ e.1.kind = .dateTime) : sentNumber e = none := by
  obtain ⟨type, cell⟩ := e
  cases type <;> first | rfl | simp [FieldType.kind] at h

theorem stoll_sent (hsent : CellSent e) (h : e.1.kind = .stoll) :
    stoll (e.2.getD []) = (sentNumber e).filter (· ≤ LLONG_MAX) := by
  obtain ⟨type, cell⟩ := e
  obtain ⟨low, high, hrange, hlow⟩ : ∃ low high, type.range? = some (low, high) ∧ LLONG_MIN ≤ low := by
    cases type <;> first | exact ⟨_, _, rfl, by decide⟩ | cases h
  cases cell with
  | none =>
    rw [sentNumber, Option.bind_none, ite_self]
    rfl
  | some text =>
    obtain ⟨n, hn, hmin, -⟩ := hsent low high text hrange rfl
    have hnumber : sentNumber (type, some text) = some n := by simp [sentNumber, hrange, hn]
    rw [Option.getD_some, stoll_numeral hn, hnumber, Option.filter_some]
    simp only [Int.le_trans hlow hmin, true_and, decide_eq_true_eq]

theorem number_of_convert (hsent : CellSent e) (h : e.1.kind ≠ .default)
    (hv : convert lib e.1 (e.2.getD []) value = some v) : v.number? = sentNumber e := by
  cases hkind : e.1.kind with
  | stoll =>
    rw [convert_stoll hkind, stoll_sent hsent hkind] at hv
    obtain ⟨n, hn, rfl⟩ := Option.map_eq_some_iff.mp hv
    exact (Option.filter_eq_some_iff.mp hn).1.symm
  | stod =>
    rw [convert_stod hkind] at hv
    obtain ⟨bits, -, rfl⟩ := Option.map_eq_some_iff.mp hv
    rw [sentNumber_eq_none (.inl hkind)]
    rfl
  | text =>
    rw [convert_text hkind] at hv
    cases hv
    rw [sentNumber_eq_none (.inr (.inl hkind))]
    split <;> rfl
  | dateTime =>
    obtain ⟨timeValue, hconvert⟩ := convert_dateTime hkind (e.2.getD []) value
    rw [hconvert] at hv
    cases hv
    rw [sentNumber_eq_none (.inr (.inr hkind))]
    rfl
  | default => exact absurd hkind h

theorem exists_convert_iff (hsent : CellSent e) (h : e.1.kind ≠ .default) (value : Value)
    (before : List (FieldType × Cell)) :
    (∃ v, convert lib e.1 (e.2.getD []) value = some v) ↔ CellReads lib before e := by
  unfold CellReads
  rw [← Option.isSome_iff_exists]
  cases hkind : e.1.kind with
  | stoll =>
    rw [convert_stoll hkind, stoll_sent hsent hkind, Option.isSome_map, Option.isSome_iff_exists]
    simp only [Option.filter_eq_some_iff, decide_eq_true_eq]
  | stod => simp [convert_stod hkind, Option.isSome_iff_ne_none]
  | text => simp [convert_text hkind]
  | dateTime =>
    obtain ⟨timeValue, hconvert⟩ := @convert_dateTime lib _ hkind (e.2.getD []) value
    simp [hconvert]
  | default => exact absurd hkind h

@[simp] theorem number?_moved (v : Value) : v.moved.number? = v.number? := by
  cases v <;> rfl

theorem lastNumber_snoc (before : List (FieldType × Cell)) (e : FieldType × Cell) :
    lastNumber (before ++ [e]) = if e.1.kind = .default then lastNumber before else sentNumber e := by
  by_cases h : e.1.kind = .default <;> simp [lastNumber, h]

/-- The number in `value` is the last one that a case has left. -/
theorem coverCell_carries (lib : Parsers) :
    Carries CellSent (fun before value => value.number? = lastNumber before) ReadsBack (CellReads lib)
      (coverCell lib) where
  iff {before value e} hsent hvalue := by
    have hpass : (∃ v left, coverCell lib value e = some (v, left) ∧ ReadsBack e v) ↔
        ∃ v, convert lib e.1 (e.2.getD []) value = some v ∧ ReadsBack e v := by
      simp [coverCell, and_assoc]
    rw [hpass]
    by_cases h : e.1.kind = .default
    · simp [convert_default h, CellReads, h, ReadsBack, hvalue]
    · rw [← exists_convert_iff hsent h value before]
      refine exists_congr fun v => and_iff_left_of_imp fun hv n hn => ?_
      exact (number_of_convert hsent h hv).trans hn
  next {before value e v left} hsent hvalue hpass := by
    obtain ⟨v, hv, heq⟩ := Option.map_eq_some_iff.mp hpass
    cases heq
    rw [lastNumber_snoc, number?_moved]
    split
    next h =>
      rw [convert_default h] at hv
      cases hv
      exact hvalue
    next h => exact number_of_convert hsent h hv

end

/-- Every result that was sent is converted if and only if its cells, in the order in which
they are read, can be parsed and hold what is left from before. -/
theorem result_converted_iff (lib : Parsers) (r : MySQLResult) (res : MysqlRes) (h : res.Sent) :
    ResultConverted res (r.cover lib res) ↔ Always (CellReads lib) res.table.flatten := by
  have hrun : (carry (carryAll (coverCell lib)) (.int64 0) res.table).2.isSome ∧
      List.Forall₂ (List.Forall₂ ReadsBack) res.table (carry (carryAll (coverCell lib)) (.int64 0) res.table).1 ↔
      AlwaysFrom (fun before es => AlwaysFrom (CellReads lib) before.flatten es) [] res.table :=
    (coverCell_carries lib).nest.run h rfl
  have hcompletes : (r.cover lib res).2 = false ↔
      (carry (carryAll (coverCell lib)) (.int64 0) res.table).2.isSome = true := by
    simp [MySQLResult.cover]
  rw [always_iff_alwaysFrom, ← List.flatten_nil, ← alwaysFrom_flatten, ← hrun]
  constructor
  · intro hconverted
    exact ⟨hcompletes.mp hconverted.completes, hconverted.rows⟩
  · rintro ⟨hsome, hrows⟩
    exact ⟨hcompletes.mpr hsome, hrows⟩

def repeatedRow (text : Bytes) : MysqlRes where
  fields := [⟨"id", .long⟩, ⟨"n", .int24⟩, ⟨"name", .varString⟩]
  rows := [[some text, some text, none]]
  wide := by simp

theorem converted_repeatedRow : (repeatedRow [52, 50]).Sent ∧ ∀ (lib : Parsers) (r : MySQLResult),
    ResultConverted (repeatedRow [52, 50]) (r.cover lib (repeatedRow [52, 50])) := by
  have hnumeral : numeral? [52, 50] = some 42 := by simp [numeral?, splitSign, signed, digitsValue, IsDigit]
  have hsent : (repeatedRow [52, 50]).Sent := by
    rintro es (_ | ⟨_, ⟨⟩⟩) e (_ | ⟨_, _ | ⟨_, _ | ⟨_, ⟨⟩⟩⟩⟩) low high text hrange htext
    · cases hrange
      cases htext
      exact ⟨42, hnumeral, by omega, by omega⟩
    · cases hrange
      cases htext
      exact ⟨42, hnumeral, by omega, by omega⟩
    · cases htext
  refine ⟨hsent, fun lib r => (result_converted_iff lib r _ hsent).mpr (always_iff_alwaysFrom.mpr ?_)⟩
  have hlong : sentNumber (.long, some [52, 50]) = some 42 := by simp [sentNumber, FieldType.range?, hnumeral]
  refine ⟨⟨42, hlong, by simp [LLONG_MAX]⟩, fun n hn => ?_, trivial, trivial⟩
  have hlast : lastNumber [(.long, some [52, 50])] = sentNumber (.long, some [52, 50]) := rfl
  exact hlast.trans hn

/-- NULL in an `INT` column: the row is lost, and the exception goes to the caller of `execute`. -/
theorem null_integer_throws : ∃ res : MysqlRes, res.Sent ∧ res.table = [[(.long, none)]] ∧
    ∀ lib r, (MySQLResult.cover lib r res).2 = true ∧ ¬ResultConverted res (MySQLResult.cover lib r res) := by
  refine ⟨⟨[⟨"id", .long⟩], [[none]], by simp⟩, ?_, rfl, fun lib r => ⟨rfl, fun h => ?_⟩⟩
  · rintro es (_ | ⟨_, ⟨⟩⟩) e (_ | ⟨_, ⟨⟩⟩) low high text hrange htext
    cases htext
  · cases h.completes

end Andren.Base
