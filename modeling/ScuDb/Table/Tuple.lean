import ScuDb.Catalog.Schema

/-!
Tuples, `tuple.cpp`: building one from values, reading a column, and
copying it to storage and back.

The constructor first sums up the size, then stores column by column. It
is given here by the list of its stores; the tuple exists if they are all
inside the bytes it has allocated.
-/

namespace ScuDb

open Foundations

/-- A `Tuple` that owns its bytes. -/
structure Tuple where
  size : Int
  data : Memory

namespace Tuple

/-- Step 1 of the constructor. -/
def tupleSize (schema : Schema) (values : List Value) : Option Int :=
  (schema.columns.zip values).foldlM (fun size (column, value) =>
    if column.isInlined then some size
    else value.getLength.map fun (len : Nat) => wrap32 (size + (len + 4))) schema.getLength

/-- Step 2 of the constructor, from the payload offset `offset` on. -/
def writes (offset : Int) : List (PlacedColumn × Value) → Option (List Write)
  | [] => some []
  | (column, value) :: rest =>
      if column.isInlined then do
        let stores ← writes offset rest
        return ⟨column.columnOffset, value.serialize⟩ :: stores
      else do
        let len ← value.getLength
        let stores ← writes (wrap32 (offset + (len + 4))) rest
        return ⟨column.columnOffset, Memory.int32Bytes offset⟩ ::
          ⟨offset, value.serialize⟩ :: stores

/-- The constructor, with `heap` for what is in the new bytes before
anything is stored. There is no tuple if the number of values is wrong,
if a size is asked for that a value does not have, if the size is
negative, or if a store is outside the new bytes. -/
def ofValues (heap : Memory) (values : List Value) (schema : Schema) : Option Tuple := do
  guard (values.length = schema.columns.length)
  let size ← tupleSize schema values
  guard (0 ≤ size)
  let stores ← writes schema.getLength (schema.placedColumns.zip values)
  guard (∀ w ∈ stores, w.Inside size)
  return ⟨size, heap.store stores⟩

/-- `GetLength` -/
def getLength (t : Tuple) : Int := t.size

/-- `GetValue` -/
def getValue (t : Tuple) (schema : Schema) (columnId : Nat) : Option Value :=
  schema.valueAt t.data t.size columnId

/-- `SerializeTo` -/
def serializeTo (t : Tuple) (storage : Memory) : Memory :=
  (storage.setInt32 0 t.size).memcpy 4 (t.data.read 0 t.size.toNat)

/-- `DeserializeFrom` -/
def deserializeFrom (heap storage : Memory) : Tuple :=
  let size := storage.getInt32 0
  ⟨size, heap.memcpy 0 (storage.read 4 size.toNat)⟩

end Tuple

end ScuDb
