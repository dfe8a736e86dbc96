import ScuDb.Common.Config
import ScuDb.Foundations.Memory

/-!
The slotted page of a table, `table_page.cpp`, over its bytes.

The slot directory grows from byte 24 on, eight bytes a slot: the offset
of the tuple and its size. The tuples grow down from the end of the page
to the free space pointer. A slot of size zero is free, a negative size
marks a tuple as deleted. Removing or resizing a tuple slides the tuples
below it and then corrects the offsets of their slots.

Logging is off. Slots are numbered from zero; no operation is called with
the slot -1 of an invalid `RID`.
-/

namespace ScuDb

open Foundations

/-- The bytes of a `TablePage`. -/
abbrev TablePage := Memory

namespace TablePage

/-! ### Fields -/

def getPageId (p : TablePage) : PageId := p.getInt32 0
def getPrevPageId (p : TablePage) : PageId := p.getInt32 8
def getNextPageId (p : TablePage) : PageId := p.getInt32 12
def setPrevPageId (p : TablePage) (id : PageId) : TablePage := p.setInt32 8 id
def setNextPageId (p : TablePage) (id : PageId) : TablePage := p.setInt32 12 id

def getTupleOffset (p : TablePage) (slot : Nat) : Int := p.getInt32 (24 + 8 * slot)
def getTupleSize (p : TablePage) (slot : Nat) : Int := p.getInt32 (28 + 8 * slot)
def setTupleOffset (p : TablePage) (slot : Nat) (offset : Int) : TablePage :=
  p.setInt32 (24 + 8 * slot) offset
def setTupleSize (p : TablePage) (slot : Nat) (size : Int) : TablePage :=
  p.setInt32 (28 + 8 * slot) size

def getFreeSpacePointer (p : TablePage) : Int := p.getInt32 16
def setFreeSpacePointer (p : TablePage) (free : Int) : TablePage := p.setInt32 16 free
def getTupleCount (p : TablePage) : Int := p.getInt32 20
def setTupleCount (p : TablePage) (count : Int) : TablePage := p.setInt32 20 count

def getFreeSpaceSize (p : TablePage) : Int :=
  p.getFreeSpacePointer - 24 - p.getTupleCount * 8

/-- The slots `for (int i = 0; i < GetTupleCount(); ++i)` visits. -/
def slots (p : TablePage) : List Nat := List.range p.getTupleCount.toNat

/-! ### Operations -/

/-- `Init` -/
def init (p : TablePage) (pageId : PageId) (size : Nat) (prevPageId : PageId) : TablePage :=
  let p : TablePage := p.setInt32 0 pageId
  let p := p.setPrevPageId prevPageId
  let p := p.setNextPageId invalidPageId
  let p := p.setFreeSpacePointer size
  p.setTupleCount 0

/-- The loop of `InsertTuple` that looks for a free slot. -/
def findFreeSlot (p : TablePage) : Nat :=
  (p.slots.find? fun i => p.getTupleSize i = 0).getD p.getTupleCount.toNat

/-- `InsertTuple`: the slot of the tuple. -/
def insertTuple (p : TablePage) (tuple : List UInt8) : Except Fault (Option Nat × TablePage) :=
  let size : Int := tuple.length
  if ¬size > 0 then .error .assertFailed
  else if p.getFreeSpaceSize < size then .ok (none, p)
  else
    let i := p.findFreeSlot
    if i = p.getTupleCount ∧ p.getFreeSpaceSize < size + 8 then .ok (none, p)
    else
      let p := p.setFreeSpacePointer (p.getFreeSpacePointer - size)
      let p : TablePage := p.memcpy p.getFreeSpacePointer.toNat tuple
      let p := p.setTupleOffset i p.getFreeSpacePointer
      let p := p.setTupleSize i size
      if i = p.getTupleCount then .ok (some i, p.setTupleCount (p.getTupleCount + 1))
      else .ok (some i, p)

/-- `MarkDelete` -/
def markDelete (p : TablePage) (slot : Nat) : Bool × TablePage :=
  if p.getTupleCount ≤ slot then (false, p)
  else
    let size := p.getTupleSize slot
    if size < 0 then (false, p)
    else if size > 0 then (true, p.setTupleSize slot (-size))
    else (true, p)

/-- The loops that correct offsets after tuples have been moved by
`delta`: slots are chosen by their size and offset. -/
def shiftOffsets (p : TablePage) (moved : Int → Int → Bool) (delta : Int) : TablePage :=
  p.slots.foldl (fun q i =>
    if moved (q.getTupleSize i) (q.getTupleOffset i)
    then q.setTupleOffset i (q.getTupleOffset i + delta) else q) p

/-- `UpdateTuple`: the old tuple when the update is made. -/
def updateTuple (p : TablePage) (newTuple : List UInt8) (slot : Nat) :
    Except Fault (Option (List UInt8) × TablePage) :=
  let newSize : Int := newTuple.length
  if p.getTupleCount ≤ slot then .ok (none, p)
  else
    let size := p.getTupleSize slot
    if size ≤ 0 then .ok (none, p)
    else if p.getFreeSpaceSize < newSize - size then .ok (none, p)
    else
      let offset := p.getTupleOffset slot
      let oldTuple := p.read offset.toNat size.toNat
      let free := p.getFreeSpacePointer
      if ¬offset ≥ free then .error .assertFailed
      else
        let p : TablePage :=
          p.memmove (free + size - newSize).toNat free.toNat (offset - free).toNat
        let p := p.setFreeSpacePointer (free + size - newSize)
        let p : TablePage := p.memcpy (offset + size - newSize).toNat newTuple
        let p := p.setTupleSize slot newSize
        let p := p.shiftOffsets (fun sizeI offsetI => sizeI > 0 ∧ offsetI < offset + size)
          (size - newSize)
        .ok (some oldTuple, p)

/-- `ApplyDelete` -/
def applyDelete (p : TablePage) (slot : Nat) : Except Fault TablePage :=
  if ¬slot < p.getTupleCount then .error .assertFailed
  else
    let offset := p.getTupleOffset slot
    let size := if p.getTupleSize slot < 0 then -p.getTupleSize slot else p.getTupleSize slot
    let free := p.getFreeSpacePointer
    if ¬offset ≥ free then .error .assertFailed
    else
      let p : TablePage := p.memmove (free + size).toNat free.toNat (offset - free).toNat
      let p := p.setFreeSpacePointer (free + size)
      let p := p.setTupleSize slot 0
      let p := p.setTupleOffset slot 0
      .ok (p.shiftOffsets (fun sizeI offsetI => sizeI ≠ 0 ∧ offsetI < offset) size)

/-- `RollbackDelete` -/
def rollbackDelete (p : TablePage) (slot : Nat) : Except Fault TablePage :=
  if ¬slot < p.getTupleCount then .error .assertFailed
  else
    let size := p.getTupleSize slot
    .ok (if size < 0 then p.setTupleSize slot (-size) else p)

/-- `GetTuple` -/
def getTuple (p : TablePage) (slot : Nat) : Option (List UInt8) :=
  if p.getTupleCount ≤ slot then none
  else
    let size := p.getTupleSize slot
    if size ≤ 0 then none
    else some (p.read (p.getTupleOffset slot).toNat size.toNat)

/-- `GetFirstTupleRid` -/
def getFirstTupleRid (p : TablePage) : Option Nat :=
  p.slots.find? fun i => p.getTupleSize i > 0

/-- `GetNextTupleRid` -/
def getNextTupleRid (p : TablePage) (slot : Nat) : Option Nat :=
  p.slots.find? fun i => slot < i ∧ p.getTupleSize i > 0

/-! ### Reading a field after another has been written -/

section Fields

variable (p : TablePage) (i j : Nat) (v : Int)

@[simp] theorem getTupleCount_setFreeSpacePointer :
    (p.setFreeSpacePointer v).getTupleCount = p.getTupleCount :=
  Memory.getInt32_setInt32_of_disjoint (by omega)

@[simp] theorem getTupleCount_setTupleSize : (p.setTupleSize i v).getTupleCount = p.getTupleCount :=
  Memory.getInt32_setInt32_of_disjoint (by omega)

@[simp] theorem getTupleCount_setTupleOffset :
    (p.setTupleOffset i v).getTupleCount = p.getTupleCount :=
  Memory.getInt32_setInt32_of_disjoint (by omega)

@[simp] theorem getFreeSpacePointer_setTupleCount :
    (p.setTupleCount v).getFreeSpacePointer = p.getFreeSpacePointer :=
  Memory.getInt32_setInt32_of_disjoint (by omega)

@[simp] theorem getFreeSpacePointer_setTupleSize :
    (p.setTupleSize i v).getFreeSpacePointer = p.getFreeSpacePointer :=
  Memory.getInt32_setInt32_of_disjoint (by omega)

@[simp] theorem getFreeSpacePointer_setTupleOffset :
    (p.setTupleOffset i v).getFreeSpacePointer = p.getFreeSpacePointer :=
  Memory.getInt32_setInt32_of_disjoint (by omega)

@[simp] theorem getTupleSize_setFreeSpacePointer :
    (p.setFreeSpacePointer v).getTupleSize j = p.getTupleSize j :=
  Memory.getInt32_setInt32_of_disjoint (by omega)

@[simp] theorem getTupleSize_setTupleCount :
    (p.setTupleCount v).getTupleSize j = p.getTupleSize j :=
  Memory.getInt32_setInt32_of_disjoint (by omega)

@[simp] theorem getTupleSize_setTupleOffset :
    (p.setTupleOffset i v).getTupleSize j = p.getTupleSize j :=
  Memory.getInt32_setInt32_of_disjoint (by omega)

@[simp] theorem getTupleOffset_setFreeSpacePointer :
    (p.setFreeSpacePointer v).getTupleOffset j = p.getTupleOffset j :=
  Memory.getInt32_setInt32_of_disjoint (by omega)

@[simp] theorem getTupleOffset_setTupleCount :
    (p.setTupleCount v).getTupleOffset j = p.getTupleOffset j :=
  Memory.getInt32_setInt32_of_disjoint (by omega)

@[simp] theorem getTupleOffset_setTupleSize :
    (p.setTupleSize i v).getTupleOffset j = p.getTupleOffset j :=
  Memory.getInt32_setInt32_of_disjoint (by omega)

variable {v} (hlo : -2147483648 ≤ v) (hhi : v < 2147483648)
include hlo hhi

theorem getFreeSpacePointer_setFreeSpacePointer :
    (p.setFreeSpacePointer v).getFreeSpacePointer = v :=
  Memory.getInt32_setInt32 _ _ hlo hhi

theorem getTupleCount_setTupleCount : (p.setTupleCount v).getTupleCount = v :=
  Memory.getInt32_setInt32 _ _ hlo hhi

theorem getTupleSize_setTupleSize :
    (p.setTupleSize i v).getTupleSize j = if j = i then v else p.getTupleSize j := by
  split
  case isTrue hij =>
    rw [hij]
    exact Memory.getInt32_setInt32 _ _ hlo hhi
  case isFalse hij => exact Memory.getInt32_setInt32_of_disjoint (by omega)

theorem getTupleOffset_setTupleOffset :
    (p.setTupleOffset i v).getTupleOffset j = if j = i then v else p.getTupleOffset j := by
  split
  case isTrue hij =>
    rw [hij]
    exact Memory.getInt32_setInt32 _ _ hlo hhi
  case isFalse hij => exact Memory.getInt32_setInt32_of_disjoint (by omega)

end Fields

end TablePage

end ScuDb
