import ScuDb.Concurrency.Transaction
import ScuDb.Page.TablePage

/-!
A table as a linked list of slotted pages, `table_heap.cpp`, and its
iterator, `table_iterator.cpp`.

The buffer pool has frames enough, so a page that has been made is
fetched with the bytes it was left with. The loop over the pages of the
list is bounded by the number of page ids given out so far. An id that
does not fit a `page_id_t` is not given out.
-/

namespace ScuDb

/-- `first_page_id_`, the pages of the table behind the buffer pool and the
page id the disk manager gives out next. -/
structure TableHeap where
  firstPageId : PageId
  pages : PageId → Option TablePage
  nextPageId : PageId

namespace TableHeap

/-! ### Pages -/

/-- The bytes of a page when it is unpinned. -/
def setPage (h : TableHeap) (id : PageId) (p : TablePage) : TableHeap :=
  { h with pages := Function.update h.pages id (some p) }

/-- `FetchPage`, for a page that is then used. -/
def fetchPage (h : TableHeap) (id : PageId) : Except Fault TablePage :=
  match h.pages id with
  | some p => .ok p
  | none => .error .noSuchPage

/-- `NewPage` -/
def newPage (h : TableHeap) : Except Fault (PageId × TableHeap) :=
  if h.nextPageId < 2147483648 then
    .ok (h.nextPageId,
      { h.setPage h.nextPageId (fun _ => 0) with nextPageId := h.nextPageId + 1 })
  else .error .noSuchPage

/-- The constructor that creates a table. -/
def create (nextPageId : PageId) : Except Fault TableHeap := do
  let (firstPageId, h) ← newPage ⟨invalidPageId, fun _ => none, nextPageId⟩
  let firstPage ← h.fetchPage firstPageId
  let h := h.setPage firstPageId (firstPage.init firstPageId pageSize invalidPageId)
  .ok { h with firstPageId := firstPageId }

/-! ### Operations -/

/-- The branch of `InsertTuple` that makes a page and links it behind
`curPage`. -/
def appendPage (h : TableHeap) (id : PageId) (curPage : TablePage) :
    Except Fault (PageId × TableHeap) := do
  let (nextPageId, h) ← h.newPage
  let newPage ← h.fetchPage nextPageId
  let h := h.setPage id (curPage.setNextPageId nextPageId)
  .ok (nextPageId, h.setPage nextPageId (newPage.init nextPageId pageSize curPage.getPageId))

/-- The loop of `InsertTuple`, from the page `id` on. -/
def insertLoop (tuple : List UInt8) : Nat → TableHeap → PageId → Except Fault (RID × TableHeap)
  | 0, _, _ => .error .outOfFuel
  | fuel + 1, h, id => do
      let curPage ← h.fetchPage id
      match ← curPage.insertTuple tuple with
      | (some slot, p) => .ok (⟨curPage.getPageId, slot⟩, h.setPage id p)
      | (none, _) =>
          if curPage.getNextPageId ≠ invalidPageId then
            insertLoop tuple fuel h curPage.getNextPageId
          else
            let (nextPageId, h) ← h.appendPage id curPage
            insertLoop tuple fuel h nextPageId

/-- `InsertTuple`: the `rid` of the tuple when it returns true. -/
def insertTuple (h : TableHeap) (tuple : List UInt8) (txn : Transaction) :
    Except Fault (Option RID × TableHeap × Transaction) :=
  if tuple.length + 32 > pageSize then .ok (none, h, txn.setState .aborted)
  else
    match h.pages h.firstPageId with
    | none => .ok (none, h, txn.setState .aborted)
    | some _ => do
        let (rid, h) ← insertLoop tuple (h.nextPageId.toNat + 1) h h.firstPageId
        .ok (some rid, h, txn.emplaceBack rid .insert [])

/-- `MarkDelete`. What the page returns is not looked at. -/
def markDelete (h : TableHeap) (rid : RID) (txn : Transaction) : Bool × TableHeap × Transaction :=
  match h.pages rid.pageId with
  | none => (false, h, txn.setState .aborted)
  | some page =>
      let (_, page) := page.markDelete rid.slotNum
      (true, h.setPage rid.pageId page, txn.emplaceBack rid .delete [])

/-- `UpdateTuple` -/
def updateTuple (h : TableHeap) (tuple : List UInt8) (rid : RID) (txn : Transaction) :
    Except Fault (Bool × TableHeap × Transaction) :=
  match h.pages rid.pageId with
  | none => .ok (false, h, txn.setState .aborted)
  | some page => do
      match ← page.updateTuple tuple rid.slotNum with
      | (none, page) => .ok (false, h.setPage rid.pageId page, txn)
      | (some oldTuple, page) =>
          .ok (true, h.setPage rid.pageId page,
            if txn.state ≠ .aborted then txn.emplaceBack rid .update oldTuple else txn)

/-- `ApplyDelete` -/
def applyDelete (h : TableHeap) (rid : RID) : Except Fault TableHeap :=
  match h.pages rid.pageId with
  | none => .error .assertFailed
  | some page => do
      let page ← page.applyDelete rid.slotNum
      .ok (h.setPage rid.pageId page)

/-- `RollbackDelete` -/
def rollbackDelete (h : TableHeap) (rid : RID) : Except Fault TableHeap :=
  match h.pages rid.pageId with
  | none => .error .assertFailed
  | some page => do
      let page ← page.rollbackDelete rid.slotNum
      .ok (h.setPage rid.pageId page)

/-- `GetTuple`: the tuple when it returns true. -/
def getTuple (h : TableHeap) (rid : RID) : Option (List UInt8) :=
  (h.pages rid.pageId).bind fun page => page.getTuple rid.slotNum

end TableHeap

/-! ### The iterator -/

/-- `rid_` and the data of `tuple_`. -/
structure TableIterator where
  rid : Option RID
  tuple : List UInt8
  deriving DecidableEq

namespace TableIterator

/-- `RID::Get`: the page id in the upper half, the slot number, which is
-1 for the invalid `RID`, below it. -/
def getRid : Option RID → BitVec 64
  | none => BitVec.ofInt 64 invalidPageId <<< 32 ||| BitVec.ofInt 64 (-1)
  | some rid => BitVec.ofInt 64 rid.pageId <<< 32 ||| BitVec.ofNat 64 rid.slotNum

/-- The constructor. -/
def ofRid (h : TableHeap) (rid : Option RID) : TableIterator :=
  ⟨rid, (rid.bind h.getTuple).getD []⟩

/-- `TableHeap::begin` -/
def start (h : TableHeap) : Except Fault TableIterator := do
  let page ← h.fetchPage h.firstPageId
  .ok (ofRid h (page.getFirstTupleRid.map (⟨page.getPageId, ·⟩)))

/-- `TableHeap::end` -/
def finish (h : TableHeap) : TableIterator := ofRid h none

/-- `operator==` -/
def isEqual (itr itr' : TableIterator) : Bool := getRid itr.rid = getRid itr'.rid

/-- The loop of `operator++` over the pages after `curPage`. -/
def firstOfNextPages (h : TableHeap) : Nat → TablePage → Except Fault (Option RID)
  | 0, _ => .error .outOfFuel
  | fuel + 1, curPage =>
      if curPage.getNextPageId ≠ invalidPageId then do
        let nextPage ← h.fetchPage curPage.getNextPageId
        match nextPage.getFirstTupleRid with
        | some slot => .ok (some ⟨nextPage.getPageId, slot⟩)
        | none => firstOfNextPages h fuel nextPage
      else .ok none

/-- `operator++` -/
def advance (h : TableHeap) (itr : TableIterator) : Except Fault TableIterator :=
  match itr.rid with
  | none => .error .noSuchPage
  | some rid => do
      let curPage ← h.fetchPage rid.pageId
      if rid.pageId ≠ curPage.getPageId then .error .assertFailed
      else
        let next ← match curPage.getNextTupleRid rid.slotNum with
          | some slot => .ok (some ⟨curPage.getPageId, slot⟩)
          | none => firstOfNextPages h (h.nextPageId.toNat + 1) curPage
        .ok ⟨next, (next.bind h.getTuple).getD itr.tuple⟩

/-- `for (; itr != end(); ++itr)`: the positions visited, in at most `fuel`
rounds. -/
def visit (h : TableHeap) : Nat → TableIterator → Except Fault (List TableIterator)
  | 0, _ => .error .outOfFuel
  | fuel + 1, itr =>
      if itr.isEqual (finish h) then .ok []
      else do
        let next ← advance h itr
        let rest ← visit h fuel next
        .ok (itr :: rest)

/-- A scan of the table. -/
def scan (h : TableHeap) (fuel : Nat) : Except Fault (List TableIterator) := do
  let itr ← start h
  visit h fuel itr

end TableIterator

end ScuDb
