import ScuDb.Common.Config
import ScuDb.Foundations.Search

/-!
The pages of a B+ tree: leaf pages, internal pages, and what each of
their member functions does to the page's own memory.

The entries a page holds are the list `array`; its length is `size_`.
Every write into that memory goes through `LeafPage.store` or
`InternalPage.store`, which fail when the page would hold more entries
than the `max_size + 1` there is room for. The asserts of the source are
faults too, and so is reading an entry the page does not hold. What a
function does to *other* pages (the parent's separator, the parent
pointers of children that change hands) is in `Index/BPlusTree.lean`.
-/

namespace ScuDb

open Foundations

/-- The key sizes the tree is instantiated with. -/
inductive KeySize
  | bytes4 | bytes8 | bytes16 | bytes32 | bytes64
  deriving DecidableEq, Repr

def KeySize.bytes : KeySize → Nat
  | .bytes4 => 4
  | .bytes8 => 8
  | .bytes16 => 16
  | .bytes32 => 32
  | .bytes64 => 64

/-- `eOpType` -/
inductive OpType
  | read | insert | delete
  deriving DecidableEq, Repr

/-- The part of a page that leaf and internal pages share. -/
structure PageHeader where
  pageId : PageId
  parentPageId : PageId
  maxSize : Nat
  deriving DecidableEq, Repr

/-- A leaf page: keys with their values, and the id of the next leaf. -/
structure LeafPage (K V : Type) extends PageHeader where
  nextPageId : PageId
  array : List (K × V)
  deriving DecidableEq, Repr

/-- An internal page: keys with the ids of the children to their right.
The key of slot 0 is not part of the search order. -/
structure InternalPage (K : Type) extends PageHeader where
  array : List (K × PageId)
  deriving DecidableEq, Repr

/-- The contents of a page of the tree. -/
inductive TreePage (K V : Type)
  | leaf (page : LeafPage K V)
  | internal (page : InternalPage K)
  deriving DecidableEq, Repr

variable {K V : Type}

/-! ### Common member functions -/

namespace TreePage

def header : TreePage K V → PageHeader
  | .leaf page => page.toPageHeader
  | .internal page => page.toPageHeader

def isLeafPage : TreePage K V → Bool
  | .leaf _ => true
  | .internal _ => false

def getPageId (page : TreePage K V) : PageId := page.header.pageId

def getParentPageId (page : TreePage K V) : PageId := page.header.parentPageId

def isRootPage (page : TreePage K V) : Bool := page.header.parentPageId = invalidPageId

def getSize : TreePage K V → Nat
  | .leaf page => page.array.length
  | .internal page => page.array.length

def getMaxSize (page : TreePage K V) : Nat := page.header.maxSize

def getMinSize (page : TreePage K V) : Nat :=
  if page.isRootPage then (if page.isLeafPage then 1 else 2) else page.getMaxSize / 2

def setParentPageId (page : TreePage K V) (parent : PageId) : TreePage K V :=
  match page with
  | .leaf p => .leaf { p with parentPageId := parent }
  | .internal p => .internal { p with parentPageId := parent }

/-- Whether the operation cannot reach the parent of this page. -/
def isSafe (page : TreePage K V) (op : OpType) : Except Fault Bool :=
  match op with
  | .insert => .ok (page.getSize < page.getMaxSize)
  | .delete =>
      let minSize := page.getMinSize + 1
      .ok (if page.isLeafPage then minSize ≤ page.getSize else minSize < page.getSize)
  | .read => .error .assertFailed

end TreePage

/-! ### Leaf pages -/

namespace LeafPage

/-- `(PAGE_SIZE - sizeof(BPlusTreeLeafPage)) / sizeof(MappingType) - 1`:
a header of 28 bytes, and entries of a key and an 8-byte record id. -/
def initMaxSize (keySize : KeySize) : Nat := (pageSize - 28) / (keySize.bytes + 8) - 1

def init (keySize : KeySize) (pageId parentId : PageId) : LeafPage K V where
  pageId := pageId
  parentPageId := parentId
  maxSize := initMaxSize keySize
  nextPageId := invalidPageId
  array := []

/-- Replace the entries of the page, within its memory. -/
def store (page : LeafPage K V) (array : List (K × V)) : Except Fault (LeafPage K V) :=
  if array.length ≤ page.maxSize + 1 then .ok { page with array := array }
  else .error .outOfBounds

/-- The first index whose key is not smaller than `key`. -/
def keyIndex (cmp : K → K → Int) (page : LeafPage K V) (key : K) : Nat :=
  bisect (holdsAt (fun e => decide (0 ≤ cmp e.1 key)) page.array) page.array.length
    0 page.array.length

def keyAt (page : LeafPage K V) (index : Nat) : Except Fault K :=
  match page.array[index]? with
  | some e => .ok e.1
  | none => .error .assertFailed

/-- No assert here: an index the page does not hold reads other memory. -/
def getItem (page : LeafPage K V) (index : Nat) : Except Fault (K × V) :=
  match page.array[index]? with
  | some e => .ok e
  | none => .error .outOfBounds

def insert (cmp : K → K → Int) (page : LeafPage K V) (key : K) (value : V) :
    Except Fault (LeafPage K V) :=
  let index := page.keyIndex cmp key
  page.store (page.array.take index ++ (key, value) :: page.array.drop index)

/-- The upper half of a full page goes to `recipient`, which is linked in
behind this page. -/
def moveHalfTo (page recipient : LeafPage K V) :
    Except Fault (LeafPage K V × LeafPage K V) := do
  let total := page.maxSize + 1
  let midIndex := total / 2
  if page.array.length < total then .error .outOfBounds
  let recipient ← recipient.store ((page.array.take total).drop midIndex)
  .ok ({ page with array := page.array.take midIndex, nextPageId := recipient.pageId },
    { recipient with nextPageId := page.nextPageId })

def lookup (cmp : K → K → Int) (page : LeafPage K V) (key : K) : Option V :=
  match page.array[page.keyIndex cmp key]? with
  | some e => if cmp e.1 key = 0 then some e.2 else none
  | none => none

def removeAndDeleteRecord (cmp : K → K → Int) (page : LeafPage K V) (key : K) :
    LeafPage K V :=
  let index := page.keyIndex cmp key
  match page.array[index]? with
  | some e =>
      if cmp key e.1 ≠ 0 then page
      else { page with array := page.array.take index ++ page.array.drop (index + 1) }
  | none => page

/-- All entries go behind those of `recipient`, which takes over the link
to the next leaf. -/
def moveAllTo (page recipient : LeafPage K V) :
    Except Fault (LeafPage K V × LeafPage K V) := do
  let recipient ← recipient.store (recipient.array ++ page.array)
  .ok ({ page with array := [] }, { recipient with nextPageId := page.nextPageId })

def copyLastFrom (page : LeafPage K V) (item : K × V) : Except Fault (LeafPage K V) :=
  page.store (page.array ++ [item])

/-- The part of `MoveFirstToEndOf` on the two leaves. -/
def moveFirstToEndOf (page recipient : LeafPage K V) :
    Except Fault (LeafPage K V × LeafPage K V) := do
  let pair ← page.getItem 0
  let recipient ← recipient.copyLastFrom pair
  .ok ({ page with array := page.array.drop 1 }, recipient)

/-- The part of `CopyFirstFrom` on the page itself. -/
def copyFirstFrom (page : LeafPage K V) (item : K × V) : Except Fault (LeafPage K V) :=
  page.store (item :: page.array)

/-- The part of `MoveLastToFrontOf` on the two leaves. -/
def moveLastToFrontOf (page recipient : LeafPage K V) :
    Except Fault (LeafPage K V × LeafPage K V) := do
  let pair ← page.getItem (page.array.length - 1)
  let recipient ← recipient.copyFirstFrom pair
  .ok ({ page with array := page.array.take (page.array.length - 1) }, recipient)

end LeafPage

/-! ### Internal pages -/

namespace InternalPage

/-- `(PAGE_SIZE - sizeof(BPlusTreeInternalPage)) / sizeof(MappingType) - 1`:
a header of 24 bytes, and entries of a key and a 4-byte page id. -/
def initMaxSize (keySize : KeySize) : Nat := (pageSize - 24) / (keySize.bytes + 4) - 1

def init (keySize : KeySize) (pageId parentId : PageId) : InternalPage K where
  pageId := pageId
  parentPageId := parentId
  maxSize := initMaxSize keySize
  array := []

/-- Replace the entries of the page, within its memory. -/
def store (page : InternalPage K) (array : List (K × PageId)) :
    Except Fault (InternalPage K) :=
  if array.length ≤ page.maxSize + 1 then .ok { page with array := array }
  else .error .outOfBounds

def keyAt (page : InternalPage K) (index : Int) : Except Fault K :=
  if index < 0 then .error .assertFailed
  else match page.array[index.toNat]? with
    | some e => .ok e.1
    | none => .error .assertFailed

def setKeyAt (page : InternalPage K) (index : Int) (key : K) :
    Except Fault (InternalPage K) :=
  if index < 0 then .error .assertFailed
  else match page.array[index.toNat]? with
    | some e => .ok { page with array := page.array.set index.toNat (key, e.2) }
    | none => .error .assertFailed

/-- The index of the first slot that points to `value`, `-1` when there
is none. -/
def valueIndex (page : InternalPage K) (value : PageId) : Int :=
  match page.array.findIdx? (fun e => e.2 = value) with
  | some index => index
  | none => -1

def valueAt (page : InternalPage K) (index : Int) : Except Fault PageId :=
  if index < 0 then .error .assertFailed
  else match page.array[index.toNat]? with
    | some e => .ok e.2
    | none => .error .assertFailed

/-- The child for `key`: the search starts at slot 1, whatever slot 0 holds. -/
def lookup (cmp : K → K → Int) (page : InternalPage K) (key : K) : Except Fault PageId :=
  if ¬page.array.length > 1 then .error .assertFailed
  else
    let begin := bisect (holdsAt (fun e => decide (¬cmp e.1 key ≤ 0)) page.array)
      page.array.length 1 page.array.length
    match page.array[begin - 1]? with
    | some e => .ok e.2
    | none => .error .outOfBounds

/-- Slot 0 keeps the key bytes of the fresh, zeroed page. -/
def populateNewRoot [Inhabited K] (page : InternalPage K) (oldValue : PageId)
    (newKey : K) (newValue : PageId) : Except Fault (InternalPage K) :=
  page.store [(default, oldValue), (newKey, newValue)]

def insertNodeAfter (page : InternalPage K) (oldValue : PageId) (newKey : K)
    (newValue : PageId) : Except Fault (InternalPage K) :=
  let index := page.valueIndex oldValue + 1
  if ¬index > 0 then .error .assertFailed
  else page.store
    (page.array.take index.toNat ++ (newKey, newValue) :: page.array.drop index.toNat)

/-- The part of `MoveHalfTo` on the two pages; the children in the second
page of the result still point to the first. -/
def moveHalfTo (page recipient : InternalPage K) :
    Except Fault (InternalPage K × InternalPage K) := do
  let total := page.maxSize + 1
  let midIndex := total / 2
  if page.array.length ≠ total then .error .assertFailed
  let recipient ← recipient.store (page.array.drop midIndex)
  .ok ({ page with array := page.array.take midIndex }, recipient)

def remove (page : InternalPage K) (index : Int) : Except Fault (InternalPage K) :=
  if ¬(0 ≤ index ∧ index < page.array.length) then .error .assertFailed
  else .ok { page with
    array := page.array.take index.toNat ++ page.array.drop (index.toNat + 1) }

def removeAndReturnOnlyChild (page : InternalPage K) :
    Except Fault (PageId × InternalPage K) := do
  let ret ← page.valueAt 0
  if page.array.length - 1 ≠ 0 then .error .assertFailed
  .ok (ret, { page with array := [] })

/-- The part of `MoveAllTo` on the two pages, `separator` being the
parent's key for this page; the children moved still point to this page. -/
def moveAllTo (page recipient : InternalPage K) (separator : K) :
    Except Fault (InternalPage K × InternalPage K) := do
  let page ← page.setKeyAt 0 separator
  let recipient ← recipient.store (recipient.array ++ page.array)
  if ¬recipient.array.length ≤ page.maxSize then .error .assertFailed
  .ok ({ page with array := [] }, recipient)

def copyLastFrom (page : InternalPage K) (pair : K × PageId) :
    Except Fault (InternalPage K) :=
  if ¬page.array.length + 1 ≤ page.maxSize then .error .assertFailed
  else page.store (page.array ++ [pair])

/-- The part of `MoveFirstToEndOf` on the two pages. -/
def moveFirstToEndOf (page recipient : InternalPage K) :
    Except Fault (InternalPage K × InternalPage K) := do
  let key ← page.keyAt 0
  let value ← page.valueAt 0
  let recipient ← recipient.copyLastFrom (key, value)
  .ok ({ page with array := page.array.drop 1 }, recipient)

/-- The part of `CopyFirstFrom` on the page itself. -/
def copyFirstFrom (page : InternalPage K) (pair : K × PageId) :
    Except Fault (InternalPage K) :=
  if ¬page.array.length + 1 < page.maxSize then .error .assertFailed
  else page.store (pair :: page.array)

/-- The part of `MoveLastToFrontOf` on the two pages. -/
def moveLastToFrontOf (page recipient : InternalPage K) :
    Except Fault (InternalPage K × InternalPage K) := do
  let key ← page.keyAt ((page.array.length : Int) - 1)
  let value ← page.valueAt ((page.array.length : Int) - 1)
  let recipient ← recipient.copyFirstFrom (key, value)
  .ok ({ page with array := page.array.take (page.array.length - 1) }, recipient)

end InternalPage

end ScuDb
