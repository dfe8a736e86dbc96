import ScuDb.Foundations.Program
import ScuDb.Page.BPlusTreePage
import ScuDb.Page.HeaderPage

/-!
The B+ tree: search, insertion with splits, removal with merges and
redistribution, and the header record of the root.

The tree is written as programs over a state that holds what its member
functions can reach: the page contents as the buffer pool returns them,
the header page, the allocator of page ids, the root id, and the page
set and deleted-page set of the calling transaction. A pointer to a
pinned page is its page id; dereferencing an id that has no page is a
fault. Pins, latches and dirty flags are not interpreted here: every call
that concerns them is recorded in `calls`, latest first, so that what the
tree asks of the buffer pool can be read off a run.

The loops of the source that walk a path of the tree are bounded by the
number of page ids allocated so far.
-/

namespace ScuDb

open Foundations

/-- What the tree asks of the buffer pool and of its locks. `store`
stands for a change of the bytes of a pinned page. -/
inductive PoolCall
  | newPage (id : PageId)
  | fetchPage (id : PageId)
  | unpinPage (id : PageId) (isDirty : Bool)
  | deletePage (id : PageId)
  | store (id : PageId)
  | lock (exclusive : Bool) (id : PageId)
  | unlock (exclusive : Bool) (id : PageId)
  | lockRoot (exclusive : Bool)
  | unlockRoot (exclusive : Bool)
  deriving DecidableEq, Repr

/-- What is fixed when a tree is constructed. -/
structure IndexParams (K : Type) where
  indexName : RecordName
  keySize : KeySize
  comparator : K → K → Int

/-- The state the member functions of a tree read and write. -/
structure BPlusTree (K V : Type) where
  rootPageId : PageId
  pages : PageId → Option (TreePage K V)
  headerPage : HeaderPage
  nextPageId : PageId
  rootLockedCnt : Nat
  pageSet : List PageId
  deletedPageSet : List PageId
  calls : List PoolCall

/-- A member function of the tree. -/
abbrev TreeM (K V : Type) := Program Fault (BPlusTree K V)

namespace BPlusTree

variable {K V : Type}

/-- A tree without a root, over a buffer pool whose next new page has the
id `next`. -/
def empty (header : HeaderPage) (next : PageId) : BPlusTree K V where
  rootPageId := invalidPageId
  pages := fun _ => none
  headerPage := header
  nextPageId := next
  rootLockedCnt := 0
  pageSet := []
  deletedPageSet := []
  calls := []

/-! ### The buffer pool and the locks, as the tree uses them -/

/-- What a member function does to the pages, to the buffer pool and to
`root_page_id_`. The functions of the tree are written over any monad
with these accesses: over `TreeM`, where there is a frame for every page,
over a pool that may be out of frames, and under watch. -/
class Access (M : Type → Type) (K V : outParam Type) where
  /-- The contents behind a page pointer. -/
  readPage : PageId → M (TreePage K V)
  /-- Store through a page pointer. -/
  writePage : PageId → TreePage K V → M Unit
  /-- `SetParentPageId` through a page pointer. -/
  setParentPageId : PageId → PageId → M Unit
  fetchPage : PageId → M Unit
  fetchHeaderPage : M Unit
  unpinPage : PageId → Bool → M Unit
  /-- A page id never used before; its page holds zeros until it is
  initialised. -/
  newPage : M PageId
  deletePage : PageId → M Unit
  getRootPageId : M PageId
  setRootPageId : PageId → M Unit
  /-- The page is fetched with an assertion that there is a frame for it. -/
  asserting : M Unit → M Unit
  /-- The pages above a safe page are released. -/
  releasing : M Unit → M Unit

export Access (readPage writePage setParentPageId fetchPage fetchHeaderPage unpinPage newPage
  deletePage getRootPageId setRootPageId asserting releasing)

variable {M : Type → Type} [Monad M] [MonadState (BPlusTree K V) M] [MonadExcept Fault M]

def record (call : PoolCall) : M Unit :=
  modify fun t => { t with calls := call :: t.calls }

/-- The contents behind a page pointer, where there is a frame for every
page. -/
def pageAt (id : PageId) : TreeM K V (TreePage K V) := do
  let t ← get
  match t.pages id with
  | some page => pure page
  | none => throw .noSuchPage

def storeAt (id : PageId) (page : TreePage K V) : TreeM K V Unit :=
  modify fun t =>
    { t with pages := Function.update t.pages id (some page), calls := .store id :: t.calls }

@[default_instance] instance : Access (TreeM K V) K V where
  readPage := pageAt
  writePage := storeAt
  setParentPageId id parent := do
    let page ← pageAt id
    storeAt id (page.setParentPageId parent)
  fetchPage id := do
    let _ ← pageAt id
    record (.fetchPage id)
  fetchHeaderPage := record (.fetchPage headerPageId)
  unpinPage id isDirty := record (.unpinPage id isDirty)
  newPage := do
    let t ← get
    set { t with nextPageId := t.nextPageId + 1, calls := .newPage t.nextPageId :: t.calls }
    pure t.nextPageId
  deletePage id := modify fun t =>
    { t with pages := Function.update t.pages id none, calls := .deletePage id :: t.calls }
  getRootPageId := do
    let t ← get
    pure t.rootPageId
  setRootPageId id := modify fun t => { t with rootPageId := id }
  asserting fetch := fetch
  releasing free := free

variable [Access M K V]

/-- `reinterpret_cast` of a page pointer to a leaf page. -/
def leafAt (id : PageId) : M (LeafPage K V) := do
  match ← readPage id with
  | .leaf page => pure page
  | .internal _ => throw .wrongPageType

/-- `reinterpret_cast` of a page pointer to an internal page. -/
def internalAt (id : PageId) : M (InternalPage K) := do
  match ← readPage id with
  | .internal page => pure page
  | .leaf _ => throw .wrongPageType

def lockRootPageId (exclusive : Bool) : M Unit :=
  modify fun t =>
    { t with rootLockedCnt := t.rootLockedCnt + 1, calls := .lockRoot exclusive :: t.calls }

def tryUnlockRootPageId (exclusive : Bool) : M Unit :=
  modify fun t =>
    if t.rootLockedCnt > 0 then
      { t with rootLockedCnt := t.rootLockedCnt - 1, calls := .unlockRoot exclusive :: t.calls }
    else t

/-- `transaction->AddIntoPageSet`; a null transaction is dereferenced. -/
def addIntoPageSet (transaction : Bool) (id : PageId) : M Unit := do
  require (transaction = true) .noSuchPage
  modify fun t => { t with pageSet := t.pageSet ++ [id] }

def addIntoDeletedPageSet (transaction : Bool) (id : PageId) : M Unit := do
  require (transaction = true) .noSuchPage
  modify fun t => { t with deletedPageSet := id :: t.deletedPageSet }

/-- One round of the loop over the page set: release the page, and delete
it when the operation has unlinked it. -/
def freePage (exclusive : Bool) (id : PageId) : M Unit := do
  record (.unlock exclusive id)
  unpinPage id exclusive
  let t ← get
  if id ∈ t.deletedPageSet then do
    deletePage id
    modify fun t => { t with deletedPageSet := t.deletedPageSet.filter (· ≠ id) }
  else pure ()

def freePagesInTransaction (exclusive transaction : Bool) (cur : PageId) : M Unit := do
  tryUnlockRootPageId exclusive
  if transaction = false then do
    require (exclusive = false ∧ cur ≥ 0) .assertFailed
    fetchPage cur
    record (.unlock false cur)
    unpinPage cur false
    unpinPage cur false
  else do
    let t ← get
    forM t.pageSet (freePage exclusive)
    let t ← get
    require (t.deletedPageSet = []) .assertFailed
    modify fun t => { t with pageSet := [] }

/-- Latch a page on the way down; the pages above it are released when
the operation cannot come back to them. -/
def crabingProtocalFetchPage (id : PageId) (op : OpType) (previous : PageId)
    (transaction : Bool) : M Unit := do
  let exclusive : Bool := op ≠ .read
  fetchPage id
  record (.lock exclusive id)
  let page ← readPage id
  let release ← (if previous > 0 then
      (if exclusive = false then pure true else MonadExcept.ofExcept (page.isSafe op))
    else pure false)
  (if release = true then releasing (freePagesInTransaction exclusive transaction previous)
    else pure ())
  (if transaction = true then addIntoPageSet transaction id else pure ())

/-- Fetch a child and let it point to its new parent. -/
def adoptChild (parent child : PageId) : M Unit := do
  fetchPage child
  setParentPageId child parent
  unpinPage child true

/-- The loop over the entries that change hands. -/
def adoptChildren (parent : PageId) (entries : List (K × PageId)) : M Unit :=
  forM entries fun e => adoptChild parent e.2

/-! ### The tree itself -/

variable (params : IndexParams K)

/-- Write the root id to the record of this tree in the header page. -/
def updateRootPageId (insertRecord : Bool) : M Unit := do
  fetchHeaderPage
  let rootPageId ← getRootPageId
  let t ← get
  let (_, header) ← MonadExcept.ofExcept
    (if insertRecord then t.headerPage.insertRecord params.indexName rootPageId
      else t.headerPage.updateRecord params.indexName rootPageId)
  modify fun t => { t with headerPage := header, calls := .store headerPageId :: t.calls }
  unpinPage headerPageId true

/-- The descent of `FindLeafPage` from the page `cur` on. -/
def findLeafFrom (key : K) (leftMost : Bool) (op : OpType) (transaction : Bool) :
    Nat → PageId → M PageId
  | 0, _ => throw .outOfFuel
  | fuel + 1, cur => do
      match ← readPage cur with
      | .leaf _ => pure cur
      | .internal page => do
          let next ← MonadExcept.ofExcept
            (if leftMost then page.valueAt 0 else page.lookup params.comparator key)
          crabingProtocalFetchPage next op cur transaction
          findLeafFrom key leftMost op transaction fuel next

/-- `none` is the null pointer returned for an empty tree. -/
def findLeafPage (key : K) (leftMost : Bool) (op : OpType) (transaction : Bool) :
    M (Option PageId) := do
  lockRootPageId (op ≠ .read)
  let rootPageId ← getRootPageId
  if rootPageId = invalidPageId then do
    tryUnlockRootPageId (op ≠ .read)
    pure none
  else do
    let t ← get
    crabingProtocalFetchPage rootPageId op (-1) transaction
    let leaf ← findLeafFrom params key leftMost op transaction t.nextPageId.toNat rootPageId
    pure (some leaf)

/-- The boolean and the vector of results, which is resized to one
element before the look-up. -/
def getValue [Inhabited V] (key : K) (result : List V) (transaction : Bool) :
    M (Bool × List V) := do
  match ← findLeafPage params key false .read transaction with
  | none => pure (false, result)
  | some id => do
      let page ← leafAt id
      let ret := match page.lookup params.comparator key with
        | some value => (true, [value])
        | none => (false, [result.headD default])
      freePagesInTransaction false transaction page.pageId
      pure ret

def startNewTree (key : K) (value : V) : M Unit := do
  let id ← newPage
  writePage id (.leaf (LeafPage.init params.keySize id invalidPageId))
  setRootPageId id
  updateRootPageId params true
  let root ← leafAt id
  let root ← MonadExcept.ofExcept (root.insert params.comparator key value)
  writePage id (.leaf root)
  unpinPage id true

/-- Move the upper half of a page to a new page, whose id is returned. -/
def split (transaction : Bool) (node : PageId) : M PageId := do
  let newPageId ← newPage
  record (.lock true newPageId)
  addIntoPageSet transaction newPageId
  match ← readPage node with
  | .leaf page => do
      let (page, newPage) ← MonadExcept.ofExcept
        (page.moveHalfTo (LeafPage.init params.keySize newPageId page.parentPageId))
      writePage newPageId (.leaf newPage)
      writePage node (.leaf page)
  | .internal page => do
      let (page, newPage) ← MonadExcept.ofExcept
        (page.moveHalfTo (InternalPage.init params.keySize newPageId page.parentPageId))
      writePage newPageId (.internal newPage)
      writePage node (.internal page)
      adoptChildren newPageId newPage.array
  pure newPageId

/-- The root has been split: put a new root above the two halves. -/
def growRoot [Inhabited K] (oldNode : PageId) (key : K) (newNode : PageId) :
    M Unit := do
  let id ← newPage
  setRootPageId id
  let newRoot ← MonadExcept.ofExcept
    ((InternalPage.init params.keySize id invalidPageId).populateNewRoot oldNode key newNode)
  writePage id (.internal newRoot)
  setParentPageId oldNode id
  setParentPageId newNode id
  updateRootPageId params false
  unpinPage id true

def insertIntoParent [Inhabited K] (transaction : Bool) :
    Nat → PageId → K → PageId → M Unit
  | 0, _, _, _ => throw .outOfFuel
  | fuel + 1, oldNode, key, newNode => do
      let oldPage ← readPage oldNode
      if oldPage.isRootPage = true then growRoot params oldNode key newNode
      else do
        let parId := oldPage.getParentPageId
        fetchPage parId
        setParentPageId newNode parId
        let parent ← internalAt parId
        let parent ← MonadExcept.ofExcept (parent.insertNodeAfter oldNode key newNode)
        writePage parId (.internal parent)
        (if parent.array.length > parent.maxSize then do
          let newId ← split params transaction parId
          let newParent ← internalAt newId
          let newKey ← MonadExcept.ofExcept (newParent.keyAt 0)
          insertIntoParent transaction fuel parId newKey newId
        else pure ())
        unpinPage parId true

def insertIntoLeaf [Inhabited K] (key : K) (value : V) (transaction : Bool) :
    M Bool := do
  match ← findLeafPage params key false .insert transaction with
  | none => throw .noSuchPage
  | some id => do
      let leaf ← leafAt id
      match leaf.lookup params.comparator key with
      | some _ => do
          freePagesInTransaction true transaction (-1)
          pure false
      | none => do
          let leaf ← MonadExcept.ofExcept (leaf.insert params.comparator key value)
          writePage id (.leaf leaf)
          (if leaf.array.length > leaf.maxSize then do
            let newId ← split params transaction id
            let newLeaf ← leafAt newId
            let newKey ← MonadExcept.ofExcept (newLeaf.keyAt 0)
            let t ← get
            insertIntoParent params transaction t.nextPageId.toNat id newKey newId
          else pure ())
          freePagesInTransaction true transaction (-1)
          pure true

def insert [Inhabited K] (key : K) (value : V) (transaction : Bool) : M Bool := do
  lockRootPageId true
  let rootPageId ← getRootPageId
  if rootPageId = invalidPageId then do
    startNewTree params key value
    tryUnlockRootPageId true
    pure true
  else do
    tryUnlockRootPageId true
    insertIntoLeaf params key value transaction

/-- `true` means that the old root page is to be deleted. -/
def adjustRoot (oldRoot : PageId) : M Bool := do
  match ← readPage oldRoot with
  | .leaf _ => do
      setRootPageId invalidPageId
      updateRootPageId params false
      pure true
  | .internal page =>
      if page.array.length = 1 then do
        let (newRootId, page) ← MonadExcept.ofExcept page.removeAndReturnOnlyChild
        writePage oldRoot (.internal page)
        setRootPageId newRootId
        updateRootPageId params false
        asserting (adoptChild invalidPageId newRootId)
        pure true
      else pure false

/-- The left sibling, or the right one of a leftmost child; `true` says
that it is the right one. -/
def findLeftSibling (transaction : Bool) (node : PageId) : M (Bool × PageId) := do
  let page ← readPage node
  fetchPage page.getParentPageId
  let parent ← internalAt page.getParentPageId
  let index := parent.valueIndex page.getPageId
  let sibling ← MonadExcept.ofExcept
    (parent.valueAt (if index = 0 then index + 1 else index - 1))
  crabingProtocalFetchPage sibling .delete (-1) transaction
  unpinPage parent.pageId false
  pure (index = 0, sibling)

/-- `MoveAllTo`, for both kinds of pages. -/
def moveAllTo (node recipient : PageId) (indexInParent : Int) : M Unit := do
  match ← readPage node with
  | .leaf page => do
      let target ← leafAt recipient
      let (page, target) ← MonadExcept.ofExcept (page.moveAllTo target)
      writePage recipient (.leaf target)
      writePage node (.leaf page)
  | .internal page => do
      let target ← internalAt recipient
      asserting (fetchPage page.parentPageId)
      let parent ← internalAt page.parentPageId
      let separator ← MonadExcept.ofExcept (parent.keyAt indexInParent)
      unpinPage parent.pageId false
      let children := page.array
      let (page, target) ← MonadExcept.ofExcept (page.moveAllTo target separator)
      writePage recipient (.internal target)
      writePage node (.internal page)
      adoptChildren target.pageId children

/-- Set the separator of slot `index` in the parent of a page. -/
def setParentKeyAt (parentId : PageId) (index : InternalPage K → Int) (key : K) :
    M Unit := do
  fetchPage parentId
  let parent ← internalAt parentId
  let parent ← MonadExcept.ofExcept (parent.setKeyAt (index parent) key)
  writePage parentId (.internal parent)
  unpinPage parentId true

/-- `MoveFirstToEndOf`, for both kinds of pages. -/
def moveFirstToEndOf (node recipient : PageId) : M Unit := do
  match ← readPage node with
  | .leaf page => do
      let target ← leafAt recipient
      let (page, target) ← MonadExcept.ofExcept (page.moveFirstToEndOf target)
      writePage node (.leaf page)
      writePage recipient (.leaf target)
      let first ← MonadExcept.ofExcept (page.getItem 0)
      setParentKeyAt page.parentPageId (fun parent => parent.valueIndex page.pageId) first.1
  | .internal page => do
      let target ← internalAt recipient
      let child ← MonadExcept.ofExcept (page.valueAt 0)
      let (page, target) ← MonadExcept.ofExcept (page.moveFirstToEndOf target)
      writePage node (.internal page)
      writePage recipient (.internal target)
      asserting (adoptChild target.pageId child)
      let first ← MonadExcept.ofExcept (page.keyAt 0)
      setParentKeyAt page.parentPageId (fun parent => parent.valueIndex page.pageId) first

/-- `MoveLastToFrontOf`, for both kinds of pages. -/
def moveLastToFrontOf (node recipient : PageId) (parentIndex : Int) : M Unit := do
  match ← readPage node with
  | .leaf page => do
      let target ← leafAt recipient
      let (page, target) ← MonadExcept.ofExcept (page.moveLastToFrontOf target)
      writePage node (.leaf page)
      writePage recipient (.leaf target)
      let first ← MonadExcept.ofExcept (target.getItem 0)
      setParentKeyAt target.parentPageId (fun _ => parentIndex) first.1
  | .internal page => do
      let target ← internalAt recipient
      let child ← MonadExcept.ofExcept (page.valueAt ((page.array.length : Int) - 1))
      let (page, target) ← MonadExcept.ofExcept (page.moveLastToFrontOf target)
      writePage node (.internal page)
      writePage recipient (.internal target)
      asserting (adoptChild target.pageId child)
      let first ← MonadExcept.ofExcept (target.keyAt 0)
      setParentKeyAt target.parentPageId (fun _ => parentIndex) first

def redistribute (neighbor node : PageId) (index : Int) : M Unit :=
  if index = 0 then moveFirstToEndOf neighbor node
  else moveLastToFrontOf neighbor node index

/-- Merge `node` into its left neighbour. `continueWith` is the call that
goes on with the parent when that has become too small. -/
def coalesce (transaction : Bool) (continueWith : PageId → M Bool)
    (neighbor node parentId : PageId) (index : Int) : M Bool := do
  moveAllTo node neighbor index
  addIntoDeletedPageSet transaction node
  let parent ← internalAt parentId
  let parent ← MonadExcept.ofExcept (parent.remove index)
  writePage parentId (.internal parent)
  if parent.array.length ≤ (TreePage.internal parent : TreePage K V).getMinSize then
    continueWith parentId
  else pure false

def coalesceOrRedistribute (transaction : Bool) : Nat → PageId → M Bool
  | 0, _ => throw .outOfFuel
  | fuel + 1, node => do
      let page ← readPage node
      if page.isRootPage = true then do
        let delOldRoot ← adjustRoot params node
        (if delOldRoot = true then addIntoDeletedPageSet transaction node else pure ())
        pure delOldRoot
      else do
        let (isRightSibling, node2) ← findLeftSibling transaction node
        let parentId := page.getParentPageId
        fetchPage parentId
        let parent ← internalAt parentId
        let page2 ← readPage node2
        if page.getSize + page2.getSize ≤ page.getMaxSize then do
          let left := if isRightSibling = true then node else node2
          let right := if isRightSibling = true then node2 else node
          let _ ← coalesce transaction (coalesceOrRedistribute transaction fuel)
            left right parentId (parent.valueIndex right)
          unpinPage parentId true
          pure true
        else do
          redistribute node2 node (parent.valueIndex node)
          unpinPage parentId false
          pure false

def remove (key : K) (transaction : Bool) : M Unit := do
  let rootPageId ← getRootPageId
  if rootPageId = invalidPageId then pure ()
  else do
    match ← findLeafPage params key false .delete transaction with
    | none => throw .noSuchPage
    | some id => do
        let leaf ← leafAt id
        let leaf := leaf.removeAndDeleteRecord params.comparator key
        writePage id (.leaf leaf)
        (if leaf.array.length < (TreePage.leaf leaf).getMinSize then do
          let t ← get
          let _ ← coalesceOrRedistribute params transaction t.nextPageId.toNat id
          pure ()
        else pure ())
        freePagesInTransaction true transaction (-1)

end BPlusTree

end ScuDb
