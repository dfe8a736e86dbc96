import ScuDb.Type.Value

/-!
Columns and schemas, `column.cpp` and `schema.cpp`: where the fixed-size
part of each column lies in a tuple. The names of columns are not used
here.
-/

namespace ScuDb

open Foundations

/-- A `Column`, as its constructor takes it. It throws for an inlined
column whose length is not positive. -/
structure Column where
  columnType : TypeId
  columnLength : Int
  length_le : columnLength ≤ int32Max
  length_pos : columnType ≠ .varchar → 0 < columnLength

namespace Column

/-- `IsInlined` -/
def isInlined (c : Column) : Bool := c.columnType ≠ .varchar

/-- `GetFixedLength`: a column that is not inlined has an offset there. -/
def getFixedLength (c : Column) : Int := if c.isInlined then c.columnLength else 4

theorem isInlined_iff (c : Column) : c.isInlined = true ↔ c.columnType ≠ .varchar :=
  decide_eq_true_iff

theorem getFixedLength_bounds (c : Column) :
    0 < c.getFixedLength ∧ c.getFixedLength ≤ int32Max := by
  rw [getFixedLength]
  split
  · rename_i h
    exact ⟨c.length_pos ((isInlined_iff c).mp h), c.length_le⟩
  · exact ⟨by decide, by decide⟩

end Column

/-- A column and its `column_offset`. -/
structure PlacedColumn extends Column where
  columnOffset : Int

/-- A `Schema`, as its constructor takes it. -/
structure Schema where
  columns : List Column

namespace Schema

/-- The constructor's loop: the columns with their offsets, and the offset
behind the last one. -/
def place (columnOffset : Int) : List Column → List PlacedColumn × Int
  | [] => ([], columnOffset)
  | column :: rest =>
      let (placed, length) := place (wrap32 (columnOffset + column.getFixedLength)) rest
      (⟨column, columnOffset⟩ :: placed, length)

def placedColumns (schema : Schema) : List PlacedColumn := (place 0 schema.columns).1

/-- `GetLength()` -/
def getLength (schema : Schema) : Int := (place 0 schema.columns).2

/-- What an access through the schema to a value's bytes does: an inlined
value is at its column's offset, another where the offset stored there
says. -/
def valueAt (schema : Schema) (m : Memory) (size : Int) (columnId : Nat) : Option Value := do
  let column ← schema.placedColumns[columnId]?
  if column.isInlined then
    Value.deserializeFrom m size column.columnOffset column.columnType
  else
    let offset ← m.readInside size column.columnOffset 4
    Value.deserializeFrom m size (wrap32 (ofLittleEndian offset)) column.columnType

/-- The offset of a column is the sum of the fixed lengths before it, as
an `int32_t`. -/
theorem place_offsets (offset : Int) (columns : List Column) :
    (place (wrap32 offset) columns).1.map PlacedColumn.columnOffset =
      (List.range columns.length).map fun i =>
        wrap32 (offset + ((columns.take i).map Column.getFixedLength).sum) := by
  induction columns generalizing offset with
  | nil => rfl
  | cons column columns ih =>
      have htail := ih (offset + column.getFixedLength)
      simp only [place, List.map_cons, List.length_cons, List.range_succ_eq_map, wrap32_wrap32_add,
        htail, List.map_map, List.take_zero, List.map_nil, List.sum_nil, add_zero]
      refine congrArg _ (List.map_congr_left fun i _ => ?_)
      simp [add_assoc]

theorem placedColumns_offsets (schema : Schema) :
    schema.placedColumns.map PlacedColumn.columnOffset =
      (List.range schema.columns.length).map fun i =>
        wrap32 ((schema.columns.take i).map Column.getFixedLength).sum := by
  have h := place_offsets 0 schema.columns
  simp only [zero_add] at h
  exact h

end Schema

end ScuDb
