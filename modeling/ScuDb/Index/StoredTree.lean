import ScuDb.Foundations.Simulation
import ScuDb.Index.BPlusTree
import ScuDb.Page.HeaderPageBytes
import ScuDb.Page.PageBytes

/-!
The B+ tree over the bytes of its pages.

The member functions are those of `BPlusTree.lean`, over a buffer pool
whose pages are bytes: the header page is page 0, a new page holds zeros,
and whether a page is a leaf is read off its first field. What a function
does inside a page is in `PageBytes.lean`. A page id is stored in four
bytes; when there is none left to allocate, the run halts.

The pages not being the values that `BPlusTree.Access` hands out, the
functions are written out here a second time; from `Stores.lean` on, each
is shown to mirror the one it is named after.
-/

namespace ScuDb

open Foundations

/-- Why a run halts. -/
inductive Halt
  | fault (fault : Fault)
  | noPageId
  deriving DecidableEq, Repr

/-- How the keys and values of a tree are stored. The bytes of the key that
a zeroed page holds are those of `default`. -/
structure TreeFormat (K V : Type) [Inhabited K] extends IndexParams K where
  key : Codec K
  value : Codec V
  key_width : key.width = keySize.bytes
  value_width : value.width = 8
  valid_default : key.Valid default
  encode_default : key.encode default = List.replicate key.width 0
  noNul : 0 ∉ indexName

namespace TreeFormat

variable {K V : Type} [Inhabited K] (fmt : TreeFormat K V)

def leaf : EntryFormat K V := leafFormat fmt.key fmt.value

def internal : EntryFormat K PageId := internalFormat fmt.key

end TreeFormat

/-- A `PoolCall`, with the bytes that a store leaves in the page. -/
inductive Request
  | newPage (id : PageId)
  | fetchPage (id : PageId)
  | unpinPage (id : PageId) (isDirty : Bool)
  | deletePage (id : PageId)
  | store (id : PageId) (bytes : PageBytes)
  | lock (exclusive : Bool) (id : PageId)
  | unlock (exclusive : Bool) (id : PageId)
  | lockRoot (exclusive : Bool)
  | unlockRoot (exclusive : Bool)

/-- The state the member functions read and write, the pages as bytes. -/
structure StoredTree where
  rootPageId : PageId
  pages : PageId → PageBytes
  nextPageId : PageId
  rootLockedCnt : Nat
  pageSet : List PageId
  deletedPageSet : List PageId
  calls : List Request

/-- A member function of the tree. -/
abbrev StoredM := Program Halt StoredTree

namespace StoredTree

/-- A tree object over a buffer pool. -/
def construct (rootPageId : PageId) (pages : PageId → PageBytes) (nextPageId : PageId) :
    StoredTree where
  rootPageId := rootPageId
  pages := pages
  nextPageId := nextPageId
  rootLockedCnt := 0
  pageSet := []
  deletedPageSet := []
  calls := []

/-- An access to the bytes of a page. -/
def access {α : Type} : Except Fault α → StoredM α
  | .ok a => pure a
  | .error e => throw (.fault e)

/-! ### The buffer pool and the locks, as the tree uses them -/

def record (call : Request) : StoredM Unit :=
  modify fun t => { t with calls := call :: t.calls }

def readPage (id : PageId) : StoredM PageBytes := do
  let t ← get
  pure (t.pages id)

def writePage (id : PageId) (p : PageBytes) : StoredM Unit :=
  modify fun t => { t with
    pages := Function.update t.pages id p
    calls := .store id p :: t.calls }

def fetchPage (id : PageId) : StoredM Unit := record (.fetchPage id)

def unpinPage (id : PageId) (isDirty : Bool) : StoredM Unit := record (.unpinPage id isDirty)

/-- The id and the bytes of a page that has been reset. -/
def newPage : StoredM (PageId × PageBytes) := do
  let t ← get
  require (t.nextPageId < 2147483648) .noPageId
  let zeros : PageBytes := fun _ => 0
  set { t with
    pages := Function.update t.pages t.nextPageId zeros
    nextPageId := t.nextPageId + 1
    calls := .newPage t.nextPageId :: t.calls }
  pure (t.nextPageId, zeros)

/-- The bytes of a deleted page are not looked at again. -/
def deletePage (id : PageId) : StoredM Unit := record (.deletePage id)

def getRootPageId : StoredM PageId := do
  let t ← get
  pure t.rootPageId

def setRootPageId (root : PageId) : StoredM Unit :=
  modify fun t => { t with rootPageId := root }

def lockRootPageId (exclusive : Bool) : StoredM Unit :=
  modify fun t =>
    { t with rootLockedCnt := t.rootLockedCnt + 1, calls := .lockRoot exclusive :: t.calls }

def tryUnlockRootPageId (exclusive : Bool) : StoredM Unit :=
  modify fun t =>
    if t.rootLockedCnt > 0 then
      { t with rootLockedCnt := t.rootLockedCnt - 1, calls := .unlockRoot exclusive :: t.calls }
    else t

def addIntoPageSet (transaction : Bool) (id : PageId) : StoredM Unit := do
  require (transaction = true) (.fault .noSuchPage)
  modify fun t => { t with pageSet := t.pageSet ++ [id] }

def addIntoDeletedPageSet (transaction : Bool) (id : PageId) : StoredM Unit := do
  require (transaction = true) (.fault .noSuchPage)
  modify fun t => { t with deletedPageSet := id :: t.deletedPageSet }

def freePage (exclusive : Bool) (id : PageId) : StoredM Unit := do
  record (.unlock exclusive id)
  unpinPage id exclusive
  let t ← get
  if id ∈ t.deletedPageSet then do
    deletePage id
    modify fun t => { t with deletedPageSet := t.deletedPageSet.filter (· ≠ id) }
  else pure ()

def freePagesInTransaction (exclusive transaction : Bool) (cur : PageId) : StoredM Unit := do
  tryUnlockRootPageId exclusive
  if transaction = false then do
    require (exclusive = false ∧ cur ≥ 0) (.fault .assertFailed)
    fetchPage cur
    record (.unlock false cur)
    unpinPage cur false
    unpinPage cur false
  else do
    let t ← get
    forM t.pageSet (freePage exclusive)
    let t ← get
    require (t.deletedPageSet = []) (.fault .assertFailed)
    modify fun t => { t with pageSet := [] }

def crabingProtocalFetchPage (id : PageId) (op : OpType) (previous : PageId)
    (transaction : Bool) : StoredM Unit := do
  let exclusive : Bool := op ≠ .read
  fetchPage id
  record (.lock exclusive id)
  let p ← readPage id
  let release ← (if previous > 0 then
      (if exclusive = false then pure true else access (p.isSafe op))
    else pure false)
  (if release = true then freePagesInTransaction exclusive transaction previous else pure ())
  (if transaction = true then addIntoPageSet transaction id else pure ())

def setParentPageId (id parent : PageId) : StoredM Unit := do
  let p ← readPage id
  writePage id (p.setParentPageId parent)

def adoptChild (parent child : PageId) : StoredM Unit := do
  fetchPage child
  setParentPageId child parent
  unpinPage child true

/-! ### The tree itself -/

variable {K V : Type} [Inhabited K] (fmt : TreeFormat K V)

/-- The children of the slots of `p` from `i` on change hands. -/
def adoptChildren (parent : PageId) (p : PageBytes) (i last : Int) : StoredM Unit :=
  if i < last then do
    let child ← access (fmt.internal.second p i)
    adoptChild parent child
    adoptChildren parent p (i + 1) last
  else pure ()
termination_by (last - i).toNat

def updateRootPageId (insertRecord : Bool) : StoredM Unit := do
  fetchPage headerPageId
  let rootPageId ← getRootPageId
  let t ← get
  let header : HeaderBytes := t.pages headerPageId
  let (_, header) ← access
    (if insertRecord then header.insertRecord fmt.indexName rootPageId
      else header.updateRecord fmt.indexName rootPageId)
  writePage headerPageId header
  unpinPage headerPageId true

def findLeafFrom (key : K) (leftMost : Bool) (op : OpType) (transaction : Bool) :
    Nat → PageId → StoredM PageId
  | 0, _ => throw (.fault .outOfFuel)
  | fuel + 1, cur => do
      let p ← readPage cur
      if p.isLeafPage = true then pure cur
      else do
        let next ← access
          (if leftMost then InternalBytes.valueAt fmt.internal p 0
            else InternalBytes.lookup fmt.internal fmt.comparator p key)
        crabingProtocalFetchPage next op cur transaction
        findLeafFrom key leftMost op transaction fuel next

def findLeafPage (key : K) (leftMost : Bool) (op : OpType) (transaction : Bool) :
    StoredM (Option PageId) := do
  lockRootPageId (op ≠ .read)
  let rootPageId ← getRootPageId
  if rootPageId = invalidPageId then do
    tryUnlockRootPageId (op ≠ .read)
    pure none
  else do
    let t ← get
    crabingProtocalFetchPage rootPageId op (-1) transaction
    -- no way down is longer than there are pages
    let leaf ← findLeafFrom fmt key leftMost op transaction t.nextPageId.toNat rootPageId
    pure (some leaf)

def getValue [Inhabited V] (key : K) (result : List V) (transaction : Bool) :
    StoredM (Bool × List V) := do
  match ← findLeafPage fmt key false .read transaction with
  | none => pure (false, result)
  | some id => do
      let p ← readPage id
      let found ← access (LeafBytes.lookup fmt.leaf fmt.comparator p key)
      let ret := match found with
        | some value => (true, [value])
        | none => (false, [result.headD default])
      freePagesInTransaction false transaction p.getPageId
      pure ret

def startNewTree (key : K) (value : V) : StoredM Unit := do
  let (id, p) ← newPage
  writePage id (LeafBytes.init fmt.leaf p id invalidPageId)
  setRootPageId id
  -- the header page gets a new record, the tree having had no root
  updateRootPageId fmt true
  let root ← readPage id
  let (root, _) ← access (LeafBytes.insert fmt.leaf fmt.comparator root key value)
  writePage id root
  unpinPage id true

def split (transaction : Bool) (node : PageId) : StoredM PageId := do
  let (newPageId, q) ← newPage
  record (.lock true newPageId)
  addIntoPageSet transaction newPageId
  let p ← readPage node
  if p.isLeafPage = true then do
    let q := LeafBytes.init fmt.leaf q newPageId p.getParentPageId
    let (p, q) ← access (LeafBytes.moveHalfTo fmt.leaf p q)
    writePage newPageId q
    writePage node p
    pure newPageId
  else do
    let q := InternalBytes.init fmt.internal q newPageId p.getParentPageId
    let (p', q) ← access (InternalBytes.moveHalfTo fmt.internal p q)
    writePage newPageId q
    writePage node p'
    -- `p` has the entries from before the move, of which the upper half has moved
    adoptChildren fmt newPageId p ((p.getMaxSize + 1).tdiv 2) (p.getMaxSize + 1)
    pure newPageId

def growRoot (oldNode : PageId) (key : K) (newNode : PageId) : StoredM Unit := do
  let (id, p) ← newPage
  setRootPageId id
  let newRoot ← access (InternalBytes.populateNewRoot fmt.internal
    (InternalBytes.init fmt.internal p id invalidPageId) oldNode key newNode)
  writePage id newRoot
  setParentPageId oldNode id
  setParentPageId newNode id
  updateRootPageId fmt false
  unpinPage id true

def insertIntoParent (transaction : Bool) : Nat → PageId → K → PageId → StoredM Unit
  | 0, _, _, _ => throw (.fault .outOfFuel)
  | fuel + 1, oldNode, key, newNode => do
      let oldPage ← readPage oldNode
      if oldPage.isRootPage = true then growRoot fmt oldNode key newNode
      else do
        let parId := oldPage.getParentPageId
        fetchPage parId
        -- a split of the parent may set this once more
        setParentPageId newNode parId
        let parent ← readPage parId
        let (parent, _) ← access
          (InternalBytes.insertNodeAfter fmt.internal parent oldNode key newNode)
        writePage parId parent
        (if parent.getSize > parent.getMaxSize then do
          let newId ← split fmt transaction parId
          let newParent ← readPage newId
          let newKey ← access (fmt.internal.keyAt newParent 0)
          insertIntoParent transaction fuel parId newKey newId
        else pure ())
        unpinPage parId true

def insertIntoLeaf (key : K) (value : V) (transaction : Bool) : StoredM Bool := do
  match ← findLeafPage fmt key false .insert transaction with
  | none => throw (.fault .noSuchPage)
  | some id => do
      let leaf ← readPage id
      match ← access (LeafBytes.lookup fmt.leaf fmt.comparator leaf key) with
      | some _ => do
          freePagesInTransaction true transaction (-1)
          pure false
      | none => do
          let (leaf, _) ← access (LeafBytes.insert fmt.leaf fmt.comparator leaf key value)
          writePage id leaf
          (if leaf.getSize > leaf.getMaxSize then do
            let newId ← split fmt transaction id
            let newLeaf ← readPage newId
            let newKey ← access (fmt.leaf.keyAt newLeaf 0)
            let t ← get
            insertIntoParent fmt transaction t.nextPageId.toNat id newKey newId
          else pure ())
          freePagesInTransaction true transaction (-1)
          pure true

def insert (key : K) (value : V) (transaction : Bool) : StoredM Bool := do
  lockRootPageId true
  let rootPageId ← getRootPageId
  if rootPageId = invalidPageId then do
    startNewTree fmt key value
    tryUnlockRootPageId true
    pure true
  else do
    tryUnlockRootPageId true
    insertIntoLeaf fmt key value transaction

def adjustRoot (oldRoot : PageId) : StoredM Bool := do
  let p ← readPage oldRoot
  if p.isLeafPage = true then do
    setRootPageId invalidPageId
    updateRootPageId fmt false
    pure true
  else if p.getSize = 1 then do
    let (newRootId, p) ← access (InternalBytes.removeAndReturnOnlyChild fmt.internal p)
    writePage oldRoot p
    setRootPageId newRootId
    updateRootPageId fmt false
    adoptChild invalidPageId newRootId
    pure true
  else pure false

def findLeftSibling (transaction : Bool) (node : PageId) : StoredM (Bool × PageId) := do
  let p ← readPage node
  fetchPage p.getParentPageId
  let parent ← readPage p.getParentPageId
  let index ← access (InternalBytes.valueIndex fmt.internal parent p.getPageId)
  let sibling ← access (InternalBytes.valueAt fmt.internal parent
    (if index = 0 then index + 1 else index - 1))
  crabingProtocalFetchPage sibling .delete (-1) transaction
  unpinPage parent.getPageId false
  pure (index = 0, sibling)

def moveAllTo (node recipient : PageId) (indexInParent : Int) : StoredM Unit := do
  let p ← readPage node
  let target ← readPage recipient
  if p.isLeafPage = true then do
    let (p, target) ← access (LeafBytes.moveAllTo fmt.leaf p target)
    writePage recipient target
    writePage node p
  else do
    fetchPage p.getParentPageId
    let parent ← readPage p.getParentPageId
    let separator ← access (fmt.internal.keyAt parent indexInParent)
    unpinPage parent.getPageId false
    let (p', target) ← access (InternalBytes.moveAllTo fmt.internal p target separator)
    writePage recipient target
    writePage node p'
    adoptChildren fmt target.getPageId p 0 p.getSize

def setParentKeyAt (parentId : PageId) (index : PageBytes → Except Fault Int) (key : K) :
    StoredM Unit := do
  fetchPage parentId
  let parent ← readPage parentId
  let i ← access (index parent)
  let parent ← access (InternalBytes.setKeyAt fmt.internal parent i key)
  writePage parentId parent
  unpinPage parentId true

def moveFirstToEndOf (node recipient : PageId) : StoredM Unit := do
  let p ← readPage node
  let target ← readPage recipient
  if p.isLeafPage = true then do
    let (p, target) ← access (LeafBytes.moveFirstToEndOf fmt.leaf p target)
    writePage node p
    writePage recipient target
    let first ← access (fmt.leaf.first p 0)
    setParentKeyAt fmt p.getParentPageId
      (fun parent => InternalBytes.valueIndex fmt.internal parent p.getPageId) first
  else do
    let child ← access (InternalBytes.valueAt fmt.internal p 0)
    let (p, target) ← access (InternalBytes.moveFirstToEndOf fmt.internal p target)
    writePage node p
    writePage recipient target
    adoptChild target.getPageId child
    let first ← access (fmt.internal.first p 0)
    setParentKeyAt fmt p.getParentPageId
      (fun parent => InternalBytes.valueIndex fmt.internal parent p.getPageId) first

def moveLastToFrontOf (node recipient : PageId) (parentIndex : Int) : StoredM Unit := do
  let p ← readPage node
  let target ← readPage recipient
  if p.isLeafPage = true then do
    let (p, target) ← access (LeafBytes.moveLastToFrontOf fmt.leaf p target)
    writePage node p
    writePage recipient target
    let first ← access (fmt.leaf.first target 0)
    setParentKeyAt fmt target.getParentPageId (fun _ => pure parentIndex) first
  else do
    let child ← access (InternalBytes.valueAt fmt.internal p (p.getSize - 1))
    let (p, target) ← access (InternalBytes.moveLastToFrontOf fmt.internal p target)
    writePage node p
    writePage recipient target
    adoptChild target.getPageId child
    let first ← access (fmt.internal.first target 0)
    setParentKeyAt fmt target.getParentPageId (fun _ => pure parentIndex) first

def redistribute (neighbor node : PageId) (index : Int) : StoredM Unit :=
  if index = 0 then moveFirstToEndOf fmt neighbor node
  else moveLastToFrontOf fmt neighbor node index

def coalesce (transaction : Bool) (continueWith : PageId → StoredM Bool)
    (neighbor node parentId : PageId) (index : Int) : StoredM Bool := do
  moveAllTo fmt node neighbor index
  addIntoDeletedPageSet transaction node
  let parent ← readPage parentId
  let parent ← access (InternalBytes.remove fmt.internal parent index)
  writePage parentId parent
  if parent.getSize ≤ parent.getMinSize then continueWith parentId
  else pure false

def coalesceOrRedistribute (transaction : Bool) : Nat → PageId → StoredM Bool
  | 0, _ => throw (.fault .outOfFuel)
  | fuel + 1, node => do
      let p ← readPage node
      if p.isRootPage = true then do
        let delOldRoot ← adjustRoot fmt node
        (if delOldRoot = true then addIntoDeletedPageSet transaction node else pure ())
        pure delOldRoot
      else do
        let (isRightSibling, node2) ← findLeftSibling fmt transaction node
        let parentId := p.getParentPageId
        fetchPage parentId
        let parent ← readPage parentId
        let p2 ← readPage node2
        if p.getSize + p2.getSize ≤ p.getMaxSize then do
          -- the left page takes all entries, and the slot of the right one goes
          let left := if isRightSibling = true then node else node2
          let right := if isRightSibling = true then node2 else node
          let index ← access (InternalBytes.valueIndex fmt.internal parent right)
          let _ ← coalesce fmt transaction (coalesceOrRedistribute transaction fuel)
            left right parentId index
          unpinPage parentId true
          pure true
        else do
          let index ← access (InternalBytes.valueIndex fmt.internal parent node)
          redistribute fmt node2 node index
          unpinPage parentId false
          pure false

def remove (key : K) (transaction : Bool) : StoredM Unit := do
  let rootPageId ← getRootPageId
  if rootPageId = invalidPageId then pure ()
  else do
    match ← findLeafPage fmt key false .delete transaction with
    | none => throw (.fault .noSuchPage)
    | some id => do
        let leaf ← readPage id
        let (leaf, curSize) ← access
          (LeafBytes.removeAndDeleteRecord fmt.leaf fmt.comparator leaf key)
        writePage id leaf
        (if curSize < leaf.getMinSize then do
          let t ← get
          let _ ← coalesceOrRedistribute fmt transaction t.nextPageId.toNat id
          pure ()
        else pure ())
        freePagesInTransaction true transaction (-1)

end StoredTree

end ScuDb
