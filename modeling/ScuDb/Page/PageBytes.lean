import ScuDb.Foundations.Records
import ScuDb.Page.BPlusTreePage

/-!
The pages of a B+ tree over their bytes.

Six fields of four bytes stand at the head of a page: its type, an LSN that
nothing reads, the size, the maximal size, the parent and the page's own
id. A leaf has the id of the next leaf behind them. The rest of the page is
the array, entry behind entry, each a key and a value without a gap.

The member functions are those of `BPlusTreePage.lean`, assignment by
assignment; an access beyond the page is a fault. As there, what a function
does to the parent and to children that change hands is left to its caller.
-/

namespace ScuDb

open Foundations

/-- `IndexPageType::LEAF_PAGE` -/
def leafPageType : Int := 1

/-- `IndexPageType::INTERNAL_PAGE` -/
def internalPageType : Int := 2

/-- The bytes of a page of the tree. -/
abbrev PageBytes := Memory

namespace PageBytes

variable (p : PageBytes)

/-! ### Common member functions -/

def isLeafPage : Bool := p.getInt32 0 = leafPageType

def setPageType (pageType : Int) : PageBytes := p.setInt32 0 pageType

def getSize : Int := p.getInt32 8

def setSize (size : Int) : PageBytes := p.setInt32 8 size

def increaseSize (amount : Int) : PageBytes := p.setSize (p.getSize + amount)

def getMaxSize : Int := p.getInt32 12

def setMaxSize (maxSize : Int) : PageBytes := p.setInt32 12 maxSize

def getParentPageId : PageId := p.getInt32 16

def setParentPageId (parent : PageId) : PageBytes := p.setInt32 16 parent

def isRootPage : Bool := p.getParentPageId = invalidPageId

def getPageId : PageId := p.getInt32 20

def setPageId (pageId : PageId) : PageBytes := p.setInt32 20 pageId

def getMinSize : Int :=
  if p.isRootPage then (if p.isLeafPage then 1 else 2) else p.getMaxSize.tdiv 2

def isSafe (op : OpType) : Except Fault Bool :=
  match op with
  | .insert => .ok (p.getSize < p.getMaxSize)
  | .delete =>
      let minSize := p.getMinSize + 1
      .ok (if p.isLeafPage then minSize ≤ p.getSize else minSize < p.getSize)
  | .read => .error .assertFailed

/-- `BPlusTreeLeafPage::GetNextPageId` -/
def getNextPageId : PageId := p.getInt32 24

def setNextPageId (next : PageId) : PageBytes := p.setInt32 24 next

/-- Bytes of the page. -/
def load (address : Int) (n : Nat) : Except Fault (List UInt8) :=
  if 0 ≤ address ∧ address + n ≤ pageSize then .ok (p.read address.toNat n)
  else .error .outOfBounds

/-- Bytes written to the page. -/
def store (address : Int) (bytes : List UInt8) : Except Fault PageBytes :=
  if 0 ≤ address ∧ address + bytes.length ≤ pageSize then .ok (p.memcpy address.toNat bytes)
  else .error .outOfBounds

end PageBytes

/-! ### The array of a page -/

/-- Where the array of a page starts, and how its keys and values are
stored. The header is in front of it. -/
structure EntryFormat (K V : Type) where
  base : Nat
  key : Codec K
  value : Codec V
  header_le : 24 ≤ base

/-- `sizeof(BPlusTreeLeafPage) == 28` -/
def leafFormat {K V : Type} (key : Codec K) (value : Codec V) : EntryFormat K V :=
  ⟨28, key, value, by decide⟩

def internalFormat {K : Type} (key : Codec K) : EntryFormat K PageId :=
  ⟨24, key, .int32, by decide⟩

namespace EntryFormat

variable {K V : Type} (f : EntryFormat K V) (p : PageBytes)

/-- `MappingType` -/
def entry : Codec (K × V) := f.key.prod f.value

def address (i : Int) : Int := f.base + i * f.entry.width

/-- `array[i].first` -/
def first (i : Int) : Except Fault K := do
  let bytes ← p.load (f.address i) f.key.width
  pure (f.key.decode bytes)

/-- `array[i].second` -/
def second (i : Int) : Except Fault V := do
  let bytes ← p.load (f.address i + f.key.width) f.value.width
  pure (f.value.decode bytes)

def setFirst (i : Int) (key : K) : Except Fault PageBytes :=
  p.store (f.address i) (f.key.encode key)

def setSecond (i : Int) (value : V) : Except Fault PageBytes :=
  p.store (f.address i + f.key.width) (f.value.encode value)

/-- The two assignments of `array[i] = {key, value}`. -/
def setEntry (i : Int) (key : K) (value : V) : Except Fault PageBytes := do
  let p ← f.setFirst p i key
  f.setSecond p i value

/-- `array[i].first = array[j].first; array[i].second = array[j].second;` -/
def copyWithin (i j : Int) : Except Fault PageBytes := do
  let key ← p.load (f.address j) f.key.width
  let p ← p.store (f.address i) key
  let value ← p.load (f.address j + f.key.width) f.value.width
  p.store (f.address i + f.key.width) value

/-- The same two assignments to another page. -/
def copyTo (recipient : PageBytes) (i j : Int) : Except Fault PageBytes := do
  let key ← p.load (f.address j) f.key.width
  let recipient ← recipient.store (f.address i) key
  let value ← p.load (f.address j + f.key.width) f.value.width
  recipient.store (f.address i + f.key.width) value

/-- `memmove(array + dst, array + src, n * sizeof(MappingType))` -/
def moveEntries (dst src n : Int) : Except Fault PageBytes :=
  if n < 0 then .error .outOfBounds
  else do
    let bytes ← p.load (f.address src) (n * f.entry.width).toNat
    p.store (f.address dst) bytes

/-- `for (; i > index; i--) array[i] = array[i - 1];` -/
def shiftUp (index i : Int) (p : PageBytes) : Except Fault PageBytes :=
  if i > index then do
    let p ← f.copyWithin p i (i - 1)
    shiftUp index (i - 1) p
  else pure p
termination_by (i - index).toNat

/-- `for (; i < size; i++) array[i - 1] = array[i];` -/
def shiftDown (i size : Int) (p : PageBytes) : Except Fault PageBytes :=
  if i < size then do
    let p ← f.copyWithin p (i - 1) i
    shiftDown (i + 1) size p
  else pure p
termination_by (size - i).toNat

/-- `for (; i < last; i++) recipient->array[i + delta] = array[i];` -/
def copyRange (delta i last : Int) (recipient : PageBytes) : Except Fault PageBytes :=
  if i < last then do
    let recipient ← f.copyTo p recipient (i + delta) i
    copyRange delta (i + 1) last recipient
  else pure recipient
termination_by (last - i).toNat

/-- `KeyAt` -/
def keyAt (index : Int) : Except Fault K :=
  if ¬(0 ≤ index ∧ index < p.getSize) then .error .assertFailed else f.first p index

/-- What `Insert` and `InsertNodeAfter` do behind the search: the page, and
the size that is returned. -/
def insertAt (index : Int) (key : K) (value : V) : Except Fault (PageBytes × Int) := do
  let p := p.increaseSize 1
  let curSize := p.getSize
  let p ← f.shiftUp index (curSize - 1) p
  let p ← f.setEntry p index key value
  pure (p, curSize)

/-- `array[GetSize()] = item; IncreaseSize(1);` -/
def append (item : K × V) : Except Fault PageBytes := do
  let p ← f.setEntry p p.getSize item.1 item.2
  pure (p.increaseSize 1)

/-- The entries move up, and `item` becomes the first one. -/
def prepend (item : K × V) : Except Fault PageBytes := do
  let p ← f.moveEntries p 1 0 p.getSize
  let p := p.increaseSize 1
  f.setEntry p 0 item.1 item.2

/-- `IncreaseSize(-1)`, and the entries behind the first one move down. -/
def dropFirst : Except Fault PageBytes :=
  let p := p.increaseSize (-1)
  f.moveEntries p 0 1 p.getSize

/-- `SetMaxSize((PAGE_SIZE - sizeof(page)) / sizeof(MappingType) - 1)` -/
def initMaxSize : Int := (pageSize - f.base) / f.entry.width - 1

end EntryFormat

/-! ### Leaf pages -/

namespace LeafBytes

variable {K V : Type} (f : EntryFormat K V) (cmp : K → K → Int) (p recipient : PageBytes)

def init (pageId parentId : PageId) : PageBytes :=
  let p := (p.setPageType leafPageType).setSize 0
  let p := ((p.setPageId pageId).setParentPageId parentId).setNextPageId invalidPageId
  p.setMaxSize f.initMaxSize

/-- `comparator(array[mid].first, key) >= 0` -/
def notBelow (key : K) (mid : Int) : Except Fault Bool := do
  let k ← f.first p mid
  pure (decide (0 ≤ cmp k key))

/-- The search ends with the bounds crossed; the index is that of `end + 1`. -/
def keyIndex (key : K) : Except Fault Int := do
  let (_, last) ← searchLoop (notBelow f cmp p key) 0 (p.getSize - 1)
  pure (last + 1)

/-- No assert here. -/
def getItem (index : Int) : Except Fault (K × V) := do
  let key ← f.first p index
  let value ← f.second p index
  pure (key, value)

/-- The page, and the size that is returned. -/
def insert (key : K) (value : V) : Except Fault (PageBytes × Int) := do
  let index ← keyIndex f cmp p key
  if ¬index ≥ 0 then .error .assertFailed else f.insertAt p index key value

def moveHalfTo : Except Fault (PageBytes × PageBytes) := do
  let total := p.getMaxSize + 1
  let midIndex := total.tdiv 2
  let recipient ← f.copyRange p (-midIndex) midIndex total recipient
  let recipient := recipient.setNextPageId p.getNextPageId
  let p := p.setNextPageId recipient.getPageId
  pure (p.setSize midIndex, recipient.setSize (total - midIndex))

def lookup (key : K) : Except Fault (Option V) := do
  let index ← keyIndex f cmp p key
  if index < p.getSize then do
    let k ← f.first p index
    if cmp k key = 0 then do
      let value ← f.second p index
      pure (some value)
    else pure none
  else pure none

/-- The page, and the size that is returned. -/
def removeAndDeleteRecord (key : K) : Except Fault (PageBytes × Int) := do
  let tarKey ← keyIndex f cmp p key
  if tarKey ≥ p.getSize then pure (p, p.getSize)
  else do
    let found ← f.keyAt p tarKey
    if cmp key found ≠ 0 then pure (p, p.getSize)
    else do
      let p ← f.moveEntries p tarKey (tarKey + 1) (p.getSize - tarKey - 1)
      let p := p.increaseSize (-1)
      pure (p, p.getSize)

def moveAllTo : Except Fault (PageBytes × PageBytes) := do
  let startIndex := recipient.getSize
  let recipient ← f.copyRange p startIndex 0 p.getSize recipient
  let recipient := recipient.setNextPageId p.getNextPageId
  pure (p.setSize 0, recipient.increaseSize p.getSize)

def copyLastFrom (item : K × V) : Except Fault PageBytes := f.append p item

def moveFirstToEndOf : Except Fault (PageBytes × PageBytes) := do
  let pair ← getItem f p 0
  let p ← f.dropFirst p
  let recipient ← copyLastFrom f recipient pair
  pure (p, recipient)

def copyFirstFrom (item : K × V) : Except Fault PageBytes := f.prepend p item

def moveLastToFrontOf : Except Fault (PageBytes × PageBytes) := do
  let pair ← getItem f p (p.getSize - 1)
  let p := p.increaseSize (-1)
  let recipient ← copyFirstFrom f recipient pair
  pure (p, recipient)

end LeafBytes

/-! ### Internal pages -/

namespace InternalBytes

variable {K : Type} (f : EntryFormat K PageId) (cmp : K → K → Int) (p recipient : PageBytes)

def init (pageId parentId : PageId) : PageBytes :=
  let p := ((p.setSize 0).setPageId pageId).setParentPageId parentId
  (p.setPageType internalPageType).setMaxSize f.initMaxSize

def setKeyAt (index : Int) (key : K) : Except Fault PageBytes :=
  if ¬(0 ≤ index ∧ index < p.getSize) then .error .assertFailed else f.setFirst p index key

def valueAt (index : Int) : Except Fault PageId :=
  if ¬(0 ≤ index ∧ index < p.getSize) then .error .assertFailed else f.second p index

/-- The loop of `ValueIndex`, from `index` on. -/
def valueIndexLoop (value : PageId) (index : Int) : Except Fault Int :=
  if index < p.getSize then do
    let found ← valueAt f p index
    if value ≠ found then valueIndexLoop value (index + 1) else pure index
  else pure (-1)
termination_by (p.getSize - index).toNat

def valueIndex (value : PageId) : Except Fault Int := valueIndexLoop f p value 0

/-- `comparator(array[mid].first, key) > 0` -/
def isAbove (key : K) (mid : Int) : Except Fault Bool := do
  let k ← f.first p mid
  pure (decide (¬cmp k key ≤ 0))

def lookup (key : K) : Except Fault PageId :=
  if ¬p.getSize > 1 then .error .assertFailed
  else do
    let (first, _) ← searchLoop (isAbove f cmp p key) 1 (p.getSize - 1)
    f.second p (first - 1)

/-- The key of slot 0 is not set. -/
def populateNewRoot (oldValue : PageId) (newKey : K) (newValue : PageId) :
    Except Fault PageBytes := do
  let p ← f.setSecond p 0 oldValue
  let p ← f.setEntry p 1 newKey newValue
  pure (p.setSize 2)

/-- The page, and the size that is returned. -/
def insertNodeAfter (oldValue : PageId) (newKey : K) (newValue : PageId) :
    Except Fault (PageBytes × Int) := do
  let found ← valueIndex f p oldValue
  let index := found + 1
  if ¬index > 0 then .error .assertFailed else f.insertAt p index newKey newValue

def moveHalfTo : Except Fault (PageBytes × PageBytes) := do
  let total := p.getMaxSize + 1
  let midIndex := total.tdiv 2
  if p.getSize ≠ total then .error .assertFailed
  else do
    let recipient ← f.copyRange p (-midIndex) midIndex total recipient
    pure (p.setSize midIndex, recipient.setSize (total - midIndex))

def remove (index : Int) : Except Fault PageBytes :=
  if ¬(0 ≤ index ∧ index < p.getSize) then .error .assertFailed
  else do
    let p ← f.shiftDown (index + 1) p.getSize p
    pure (p.increaseSize (-1))

def removeAndReturnOnlyChild : Except Fault (PageId × PageBytes) := do
  let ret ← valueAt f p 0
  let p := p.increaseSize (-1)
  if p.getSize ≠ 0 then .error .assertFailed else pure (ret, p)

/-- `separator` is the parent's key for this page. -/
def moveAllTo (separator : K) : Except Fault (PageBytes × PageBytes) := do
  let start := recipient.getSize
  let p ← setKeyAt f p 0 separator
  let recipient ← f.copyRange p start 0 p.getSize recipient
  let recipient := recipient.setSize (start + p.getSize)
  if ¬recipient.getSize ≤ p.getMaxSize then .error .assertFailed
  else pure (p.setSize 0, recipient)

def copyLastFrom (pair : K × PageId) : Except Fault PageBytes :=
  if ¬p.getSize + 1 ≤ p.getMaxSize then .error .assertFailed else f.append p pair

def moveFirstToEndOf : Except Fault (PageBytes × PageBytes) := do
  let key ← f.keyAt p 0
  let value ← valueAt f p 0
  let p ← f.dropFirst p
  let recipient ← copyLastFrom f recipient (key, value)
  pure (p, recipient)

def copyFirstFrom (pair : K × PageId) : Except Fault PageBytes :=
  if ¬p.getSize + 1 < p.getMaxSize then .error .assertFailed else f.prepend p pair

def moveLastToFrontOf : Except Fault (PageBytes × PageBytes) := do
  let key ← f.keyAt p (p.getSize - 1)
  let value ← valueAt f p (p.getSize - 1)
  let p := p.increaseSize (-1)
  let recipient ← copyFirstFrom f recipient (key, value)
  pure (p, recipient)

end InternalBytes

end ScuDb
