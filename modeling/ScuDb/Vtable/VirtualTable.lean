import ScuDb.Concurrency.TransactionManager
import ScuDb.Index.BPlusTree

/-!
The rows of a virtual table and their index, `virtual_table.h`, and the
functions SQLite changes them with, `virtual_table.cpp`.

A row is the bytes of its tuple; `keyOf` takes the indexed columns out of
them. The heap and the index are changed one after the other, and what
either returns is not looked at, but for `UpdateTuple`. Each of the two
counts the page ids it has been given.
-/

namespace ScuDb

open Foundations

/-- A `VirtualTable` with the global transaction. The `RID`s in the index
may be the invalid one. -/
structure VirtualTable (K : Type) where
  tableHeap : TableHeap
  index : Option (BPlusTree K (Option RID))
  transaction : Transaction

variable {K : Type}

/-- A member function of the table. -/
abbrev TableM (K : Type) := Program Fault (VirtualTable K)

namespace VirtualTable

/-! ### The heap -/

/-- `InsertTuple`: the `RID` when it returns true. -/
def insertTuple (tuple : List UInt8) : TableM K (Option RID) := fun s => do
  let (rid, tableHeap, transaction) ← s.tableHeap.insertTuple tuple s.transaction
  .ok (rid, { s with tableHeap := tableHeap, transaction := transaction })

/-- `DeleteTuple` -/
def deleteTuple (rid : RID) : TableM K Bool := fun s =>
  let (success, tableHeap, transaction) := s.tableHeap.markDelete rid s.transaction
  .ok (success, { s with tableHeap := tableHeap, transaction := transaction })

/-- `UpdateTuple` -/
def updateTuple (tuple : List UInt8) (rid : RID) : TableM K Bool := fun s => do
  let (success, tableHeap, transaction) ← s.tableHeap.updateTuple tuple rid s.transaction
  .ok (success, { s with tableHeap := tableHeap, transaction := transaction })

/-! ### The index -/

/-- A call of the index, if there is one. -/
def onIndex {α : Type} (call : TreeM K (Option RID) α) : TableM K Unit := fun s =>
  match s.index with
  | none => .ok ((), s)
  | some t => do
      let (_, t) ← call t
      .ok ((), { s with index := some t })

variable (params : IndexParams K) (keyOf : List UInt8 → K)

def insertEntry [Inhabited K] (tuple : List UInt8) (rid : Option RID) : TableM K Unit :=
  onIndex (BPlusTree.insert params (keyOf tuple) rid true)

/-- The key is that of the tuple the heap has under the `RID`; without
one, its columns are read through a null pointer. -/
def deleteEntry (rid : RID) : TableM K Unit := do
  let s ← get
  match s.index with
  | none => pure ()
  | some _ =>
      match s.tableHeap.getTuple rid with
      | none => throw .noSuchPage
      | some deletedTuple => onIndex (BPlusTree.remove params (keyOf deletedTuple) true)

/-- `ScanKey`: the vector of results. -/
def scanKey (key : K) (result : List (Option RID)) : TableM K (List (Option RID)) := fun s =>
  match s.index with
  | none => .error .noSuchPage
  | some t => do
      let ((_, result), t) ←
        (BPlusTree.getValue params key result false : TreeM K (Option RID) _) t
      .ok (result, { s with index := some t })

end VirtualTable

/-! ### The calls of SQLite -/

/-- The rows a call of `VtabUpdate` is about. -/
inductive RowChange
  | delete (rid : RID)
  | insert (tuple : List UInt8)
  | update (rid : RID) (tuple : List UInt8)

open VirtualTable

variable (params : IndexParams K) (keyOf : List UInt8 → K)

/-- `VtabUpdate`. A `RID` that `InsertTuple` does not set stays what it
was. -/
def vtabUpdate [Inhabited K] : RowChange → TableM K Unit
  | .delete rid => do
      deleteEntry params keyOf rid
      let _ ← deleteTuple rid
      pure ()
  | .insert tuple => do
      let rid ← insertTuple tuple
      insertEntry params keyOf tuple rid
  | .update rid tuple => do
      deleteEntry params keyOf rid
      if ← updateTuple tuple rid then insertEntry params keyOf tuple (some rid)
      else do
        let _ ← deleteTuple rid
        let new ← insertTuple tuple
        insertEntry params keyOf tuple (some (new.getD rid))

/-- `VtabCommit`, and the `VtabBegin` before the next write. -/
def vtabCommit : TableM K Unit := fun s => do
  let (tableHeap, _) ← TransactionManager.commit s.tableHeap s.transaction
  .ok ((), { s with tableHeap := tableHeap, transaction := TransactionManager.start })

/-- A call SQLite makes to change rows. -/
inductive VtabOp
  | update (change : RowChange)
  | commit

namespace VtabOp

def run [Inhabited K] : VtabOp → TableM K Unit
  | .update change => vtabUpdate params keyOf change
  | .commit => vtabCommit

/-- Rows that are changed are visible: SQLite has got their `RID`s from a
cursor. -/
def Allowed : VtabOp → VirtualTable K → Prop
  | .update (.delete rid), s => ∃ tuple, s.tableHeap.getTuple rid = some tuple
  | .update (.update rid _), s => ∃ tuple, s.tableHeap.getTuple rid = some tuple
  | _, _ => True

instance : (op : VtabOp) → (s : VirtualTable K) → Decidable (op.Allowed s)
  | .update (.delete rid), s | .update (.update rid _), s =>
      decidable_of_iff ((s.tableHeap.getTuple rid).isSome = true) Option.isSome_iff_exists
  | .update (.insert _), _ | .commit, _ => isTrue trivial

end VtabOp

end ScuDb
