import Mathlib.Data.Int.Order.Basic
import ScuDb.Index.Execution
import ScuDb.Index.StoredTree
import ScuDb.Page.InternalBytes
import ScuDb.Page.LeafBytes

/-!
The tree over bytes mirrors the tree over pages: what they ask of the
buffer pool and of the locks.

`Stores` relates the states. Its world is the next page id: the ids of the
pages that are known by now are below it, and it only grows. What a
function of `BPlusTree` does from a state whose pages the bytes hold, its
namesake in `StoredTree` does to the bytes.
-/

namespace ScuDb

open Foundations PageBytes

variable {K V : Type} [Inhabited K]

/-- The bytes hold the page. -/
def TreePage.StoredAt (fmt : TreeFormat K V) (p : PageBytes) : TreePage K V → Prop
  | .leaf page => LeafPage.StoredAt fmt.leaf p page
  | .internal page => InternalPage.StoredAt fmt.internal p page

/-- A page id that has been given out. -/
structure Allocated (limit id : PageId) : Prop where
  positive : 0 < id
  below : id < limit
  valid : Codec.int32.Valid id

theorem Allocated.mono {limit limit' id : PageId} (h : Allocated limit id)
    (hle : limit ≤ limit') : Allocated limit' id :=
  ⟨h.positive, h.below.trans_le hle, h.valid⟩

namespace Request

/-- The request without the bytes. -/
def call : Request → PoolCall
  | newPage id => .newPage id
  | fetchPage id => .fetchPage id
  | unpinPage id isDirty => .unpinPage id isDirty
  | deletePage id => .deletePage id
  | store id _ => .store id
  | lock exclusive id => .lock exclusive id
  | unlock exclusive id => .unlock exclusive id
  | lockRoot exclusive => .lockRoot exclusive
  | unlockRoot exclusive => .unlockRoot exclusive

/-- What the request does to the bytes of the pages. -/
def onPages (r : Request) (pages : PageId → PageBytes) : PageId → PageBytes :=
  match r with
  | newPage id => Function.update pages id fun _ => 0
  | store id bytes => Function.update pages id bytes
  | _ => pages

end Request

/-- The bytes in the buffer pool, which once were `base`, hold the pages of
the tree. -/
structure Stores (fmt : TreeFormat K V) (base : PageId → PageBytes) (limit : PageId)
    (t : BPlusTree K V) (b : StoredTree) : Prop where
  rootPageId : b.rootPageId = t.rootPageId
  validRoot : Codec.int32.Valid t.rootPageId
  page : ∀ id page, t.pages id = some page → Allocated limit id ∧ page.StoredAt fmt (b.pages id)
  header : HeaderBytes.Lays (b.pages headerPageId) t.headerPage
  next : t.nextPageId = limit ∧ b.nextPageId = limit
  positive : 0 < limit
  rootLockedCnt : b.rootLockedCnt = t.rootLockedCnt
  pageSet : b.pageSet = t.pageSet
  deletedPageSet : b.deletedPageSet = t.deletedPageSet
  calls : b.calls.map Request.call = t.calls
  written : b.pages = b.calls.foldr Request.onPages base

/-- `n` does to the bytes what `m` does to the pages. -/
abbrev Mirrors {α β : Type} (fmt : TreeFormat K V) (base : PageId → PageBytes)
    (Q : PageId → α → β → Prop) (limit : PageId) (n : StoredM β) (m : TreeM K V α) : Prop :=
  @Simulates _ _ _ _ _ _ PageId Int.instLinearOrder.toPreorder (Stores fmt base) Halt.noPageId Q
    limit m n

variable {fmt : TreeFormat K V} {base : PageId → PageBytes} {limit id : PageId}

/-! ### The header of a stored page -/

namespace TreePage.StoredAt

variable {p : PageBytes} {page : TreePage K V}

theorem isLeafPage (h : page.StoredAt fmt p) : p.isLeafPage = page.isLeafPage := by
  cases page with
  | leaf page => exact LeafPage.StoredAt.isLeafPage h
  | internal page => exact Bool.eq_false_iff.mpr (InternalPage.StoredAt.not_isLeafPage h)

theorem getSize (h : page.StoredAt fmt p) : p.getSize = page.getSize := by
  cases page with
  | leaf page => exact (LeafPage.StoredAt.lays h).size
  | internal page => exact Lays.size h

theorem getMaxSize (h : page.StoredAt fmt p) : p.getMaxSize = page.getMaxSize := by
  cases page with
  | leaf page => exact (LeafPage.StoredAt.lays h).maxSize
  | internal page => exact Lays.maxSize h

theorem getParentPageId (h : page.StoredAt fmt p) : p.getParentPageId = page.getParentPageId := by
  cases page with
  | leaf page => exact (LeafPage.StoredAt.lays h).parent
  | internal page => exact Lays.parent h

theorem getPageId (h : page.StoredAt fmt p) : p.getPageId = page.getPageId := by
  cases page with
  | leaf page => exact (LeafPage.StoredAt.lays h).pageId
  | internal page => exact Lays.pageId h

theorem isRootPage (h : page.StoredAt fmt p) : p.isRootPage = page.isRootPage := by
  rw [PageBytes.isRootPage, h.getParentPageId]
  rfl

theorem getMinSize (h : page.StoredAt fmt p) : p.getMinSize = page.getMinSize := by
  rw [PageBytes.getMinSize, h.isRootPage, h.isLeafPage, h.getMaxSize, TreePage.getMinSize]
  split
  · split <;> rfl
  · exact Int.ofNat_tdiv _ _

theorem isSafe (h : page.StoredAt fmt p) (op : OpType) : p.isSafe op = page.isSafe op := by
  cases op with
  | read => rfl
  | insert =>
      rw [PageBytes.isSafe, TreePage.isSafe, h.getSize, h.getMaxSize]
      simp only [Int.ofNat_lt]
  | delete =>
      rw [PageBytes.isSafe, TreePage.isSafe, h.getSize, h.getMinSize, h.isLeafPage]
      split
      · simp only [← Int.natCast_succ, Int.ofNat_le]
      · simp only [← Int.natCast_succ, Int.ofNat_lt]

theorem setParentPageId (h : page.StoredAt fmt p) {parent : PageId}
    (hparent : Codec.int32.Valid parent) :
    (page.setParentPageId parent).StoredAt fmt (p.setParentPageId parent) := by
  cases page with
  | leaf page => exact LeafPage.StoredAt.setParentPageId h hparent
  | internal page => exact Lays.setParentPageId h hparent

end TreePage.StoredAt

/-! ### Accesses -/

namespace StoredTree

theorem access_ok {α : Type} (a : α) : access (.ok a) = (pure a : StoredM α) := rfl

/-- The same computation on both sides. -/
theorem access_mirrors {α : Type} (x : Except Fault α) :
    Mirrors fmt base (fun _ a b => a = b ∧ x = .ok a) limit (access x)
      (MonadExcept.ofExcept x) := by
  cases x with
  | error e => exact .throw
  | ok a => exact .pure ⟨rfl, rfl⟩

theorem require_mirrors {c c' : Prop} [Decidable c] [Decidable c'] {e : Fault} {e' : Halt}
    (hc : c → c') :
    Mirrors (K := K) (V := V) fmt base (fun _ _ _ => True) limit (require c' e') (require c e) :=
  .require hc fun _ => trivial

theorem record_mirrors {call : PoolCall} {r : Request} (hcall : r.call = call)
    (hpages : ∀ pages, r.onPages pages = pages) :
    Mirrors (K := K) (V := V) fmt base (fun _ _ _ => True) limit (record r)
      (BPlusTree.record call) := by
  refine .modify (fun t b h => { h with calls := ?_, written := ?_ }) trivial
  · exact congrArg₂ List.cons hcall h.calls
  · exact h.written.trans (hpages _).symm

theorem readPage_mirrors :
    Mirrors fmt base (fun limit page p => Allocated limit id ∧ page.StoredAt fmt p) limit
      (readPage id) (BPlusTree.readPage id) := by
  refine .bind .get fun w t b _ h => ?_
  cases hpage : t.pages id with
  | none => exact .throw
  | some page => exact .pure (h.page id page hpage)

theorem leafAt_mirrors :
    Mirrors fmt base (fun limit page p => Allocated limit id ∧ LeafPage.StoredAt fmt.leaf p page)
      limit (readPage id) (BPlusTree.leafAt id) := by
  rw [BPlusTree.leafAt, ← bind_pure (readPage id)]
  refine .bind readPage_mirrors fun w page p _ h => ?_
  cases page with
  | leaf page => exact .pure h
  | internal page => exact .throw

theorem internalAt_mirrors :
    Mirrors fmt base (fun limit page p => Allocated limit id ∧
      InternalPage.StoredAt fmt.internal p page) limit
      (readPage id) (BPlusTree.internalAt id) := by
  rw [BPlusTree.internalAt, ← bind_pure (readPage id)]
  refine .bind readPage_mirrors fun w page p _ h => ?_
  cases page with
  | leaf page => exact .throw
  | internal page => exact .pure h

theorem writePage_mirrors {p : PageBytes} {page : TreePage K V} (hid : Allocated limit id)
    (hp : page.StoredAt fmt p) :
    Mirrors fmt base (fun _ _ _ => True) limit (writePage id p) (BPlusTree.writePage id page) := by
  refine .modify (fun t b h => ?_) trivial
  have hheader : headerPageId ≠ id := Int.ne_of_lt hid.positive
  refine { h with
    page := fun id' page' hpage => ?_, header := ?_, calls := congrArg (_ :: ·) h.calls
    written := congrArg (Function.update · id p) h.written }
  · dsimp only at hpage ⊢
    by_cases hsame : id' = id
    · subst hsame
      rw [Function.update_self] at hpage
      cases hpage
      exact ⟨hid, by rw [Function.update_self]; exact hp⟩
    · rw [Function.update_of_ne hsame] at hpage ⊢
      exact h.page id' page' hpage
  · dsimp only
    rw [Function.update_of_ne hheader]
    exact h.header

theorem fetchPage_mirrors :
    Mirrors fmt base (fun _ _ _ => True) limit (fetchPage id) (BPlusTree.fetchPage id) := by
  exact .leaves_bind (fun _ => BPlusTree.wlp_readPage.mpr fun _ _ => rfl) fun _ =>
    record_mirrors (by rfl) fun _ => by rfl

theorem unpinPage_mirrors (isDirty : Bool) :
    Mirrors fmt base (fun _ _ _ => True) limit (unpinPage id isDirty)
      (BPlusTree.unpinPage id isDirty) :=
  record_mirrors (by rfl) fun _ => by rfl

/-- The id of a new page has not been known before. -/
theorem newPage_mirrors :
    Mirrors fmt base (fun limit id q => q = (id, fun _ => 0) ∧ Allocated limit id) limit newPage
      BPlusTree.newPage := by
  rintro t b h _ _ ⟨⟩
  obtain ⟨hnext, hnext'⟩ := h.next
  have hbind : newPage b = ((require (b.nextPageId < 2147483648) Halt.noPageId : StoredM Unit) >>=
    fun _ => do
      set { b with
        pages := Function.update b.pages b.nextPageId (fun _ => 0)
        nextPageId := b.nextPageId + 1
        calls := Request.newPage b.nextPageId :: b.calls }
      pure (b.nextPageId, fun _ => 0)) b := rfl
  rw [hnext'] at hbind
  by_cases hlt : limit < 2147483648
  case neg =>
    left
    rw [hbind, require, if_neg hlt]
    rfl
  case pos =>
    right
    rw [require, if_pos hlt, pure_bind] at hbind
    have hsucc : limit < limit + 1 := Int.lt_succ limit
    have hpos := h.positive
    refine ⟨_, _, limit + 1, hbind, hsucc.le, ?_, ?_⟩
    · -- the pages known so far are not the new one
      refine { h with
        page := fun id page hpage => ?_, header := ?_, next := ?_, positive := ?_, calls := ?_
        written := congrArg (Function.update · limit fun _ => 0) h.written }
      · obtain ⟨hid, hstored⟩ := h.page id page hpage
        dsimp only
        rw [Function.update_of_ne hid.below.ne]
        exact ⟨hid.mono hsucc.le, hstored⟩
      · dsimp only
        rw [Function.update_of_ne (show headerPageId ≠ limit from hpos.ne)]
        exact h.header
      · exact ⟨congrArg (· + 1) hnext, rfl⟩
      · exact hpos.trans hsucc
      · rw [hnext]
        exact congrArg (_ :: ·) h.calls
    · rw [hnext]
      exact ⟨rfl, hpos, hsucc, Int.le_trans (by decide) hpos.le, hlt⟩

theorem deletePage_mirrors :
    Mirrors fmt base (fun _ _ _ => True) limit (deletePage id) (BPlusTree.deletePage id) := by
  refine .modify (fun t b h => ?_) trivial
  refine { h with page := fun id' page hpage => ?_, calls := congrArg (_ :: ·) h.calls }
  dsimp only at hpage
  by_cases hid : id' = id
  · rw [hid, Function.update_self] at hpage
    cases hpage
  · rw [Function.update_of_ne hid] at hpage
    exact h.page id' page hpage

theorem lockRootPageId_mirrors (exclusive : Bool) :
    Mirrors fmt base (fun _ _ _ => True) limit (lockRootPageId exclusive)
      (BPlusTree.lockRootPageId exclusive) :=
  .modify (fun _ _ h => { h with
    rootLockedCnt := congrArg (· + 1) h.rootLockedCnt
    calls := congrArg (_ :: ·) h.calls }) trivial

theorem tryUnlockRootPageId_mirrors (exclusive : Bool) :
    Mirrors fmt base (fun _ _ _ => True) limit (tryUnlockRootPageId exclusive)
      (BPlusTree.tryUnlockRootPageId exclusive) := by
  refine .modify (fun t b h => ?_) trivial
  by_cases hlocked : t.rootLockedCnt > 0
  · rw [if_pos hlocked, if_pos (h.rootLockedCnt ▸ hlocked)]
    exact { h with
      rootLockedCnt := congrArg (· - 1) h.rootLockedCnt
      calls := congrArg (_ :: ·) h.calls }
  · rw [if_neg hlocked, if_neg (h.rootLockedCnt ▸ hlocked)]
    exact h

theorem addIntoPageSet_mirrors (transaction : Bool) :
    Mirrors fmt base (fun _ _ _ => True) limit (addIntoPageSet transaction id)
      (BPlusTree.addIntoPageSet transaction id) :=
  .bind (require_mirrors fun h => h) fun _ _ _ _ _ =>
    .modify (fun _ _ h => { h with pageSet := congrArg (· ++ [id]) h.pageSet }) trivial

theorem addIntoDeletedPageSet_mirrors (transaction : Bool) :
    Mirrors fmt base (fun _ _ _ => True) limit (addIntoDeletedPageSet transaction id)
      (BPlusTree.addIntoDeletedPageSet transaction id) :=
  .bind (require_mirrors fun h => h) fun _ _ _ _ _ =>
    .modify (fun _ _ h => { h with deletedPageSet := congrArg (id :: ·) h.deletedPageSet }) trivial

theorem getRootPageId_mirrors :
    Mirrors (K := K) (V := V) fmt base (fun _ root root' => root = root' ∧ Codec.int32.Valid root)
      limit getRootPageId BPlusTree.getRootPageId :=
  .bind .get fun _ _ _ _ h => .pure ⟨h.rootPageId.symm, h.validRoot⟩

theorem setRootPageId_mirrors {root : PageId} (hroot : Codec.int32.Valid root) :
    Mirrors (K := K) (V := V) fmt base (fun _ _ _ => True) limit
      (setRootPageId root) (BPlusTree.setRootPageId root) :=
  .modify (fun _ _ h => { h with rootPageId := rfl, validRoot := hroot }) trivial

/-! ### Releasing pages -/

theorem freePage_mirrors (exclusive : Bool) :
    Mirrors fmt base (fun _ _ _ => True) limit (freePage exclusive id)
      (BPlusTree.freePage exclusive id) := by
  refine (record_mirrors (by rfl) fun _ => by rfl).bind fun _ _ _ _ _ => ?_
  refine (unpinPage_mirrors _).bind fun _ _ _ _ _ => .bind .get fun _ t b _ h => ?_
  refine .ite (by rw [h.deletedPageSet]) (fun _ => ?_) fun _ => .pure trivial
  refine deletePage_mirrors.bind fun _ _ _ _ _ => .modify (fun _ _ h => ?_) trivial
  exact { h with deletedPageSet := congrArg (List.filter _) h.deletedPageSet }

theorem freePagesInTransaction_mirrors (exclusive transaction : Bool) (cur : PageId) :
    Mirrors fmt base (fun _ _ _ => True) limit (freePagesInTransaction exclusive transaction cur)
      (BPlusTree.freePagesInTransaction exclusive transaction cur) := by
  refine (tryUnlockRootPageId_mirrors _).bind fun _ _ _ _ _ => ?_
  refine .ite Iff.rfl (fun _ => ?_) fun _ => ?_
  · refine .bind (require_mirrors fun h => h) fun _ _ _ _ _ => ?_
    refine fetchPage_mirrors.bind fun _ _ _ _ _ => ?_
    refine (record_mirrors (by rfl) fun _ => by rfl).bind fun _ _ _ _ _ => ?_
    exact (unpinPage_mirrors _).bind fun _ _ _ _ _ => unpinPage_mirrors _
  · refine .bind .get fun _ t b _ h => ?_
    rw [h.pageSet]
    refine .bind (.forM fun id _ _ => freePage_mirrors exclusive) fun _ _ _ _ _ => ?_
    refine .bind .get fun _ t b _ h => ?_
    refine .bind (require_mirrors fun hc => h.deletedPageSet.trans hc) fun _ _ _ _ _ => ?_
    exact .modify (fun _ _ h => { h with pageSet := rfl }) trivial

theorem crabingProtocalFetchPage_mirrors (op : OpType) (previous : PageId) (transaction : Bool) :
    Mirrors fmt base (fun _ _ _ => True) limit (crabingProtocalFetchPage id op previous transaction)
      (BPlusTree.crabingProtocalFetchPage id op previous transaction) := by
  refine fetchPage_mirrors.bind fun _ _ _ _ _ => ?_
  refine (record_mirrors (by rfl) fun _ => by rfl).bind fun _ _ _ _ _ => ?_
  refine readPage_mirrors.bind fun _ page p _ hp => ?_
  refine .bind (P := fun _ a b => a = b) ?_ fun _ release _ _ hrelease => ?_
  · refine .ite Iff.rfl (fun _ => .ite Iff.rfl (fun _ => .pure rfl) fun _ => ?_) fun _ => .pure rfl
    rw [hp.2.isSafe]
    exact (access_mirrors _).mono fun _ _ _ _ h => h.1
  · subst hrelease
    refine .bind (P := fun _ _ _ => True) ?_ fun _ _ _ _ _ => ?_
    · exact .ite Iff.rfl (fun _ => freePagesInTransaction_mirrors _ _ _) fun _ => .pure trivial
    · exact .ite Iff.rfl (fun _ => addIntoPageSet_mirrors _) fun _ => .pure trivial

/-! ### Parents and children -/

theorem setParentPageId_mirrors {parent : PageId} (hparent : Codec.int32.Valid parent) :
    Mirrors fmt base (fun _ _ _ => True) limit (setParentPageId id parent)
      (BPlusTree.setParentPageId id parent) :=
  readPage_mirrors.bind fun _ _ _ _ hp =>
    writePage_mirrors hp.1 (hp.2.setParentPageId hparent)

theorem adoptChild_mirrors {parent child : PageId} (hparent : Codec.int32.Valid parent) :
    Mirrors fmt base (fun _ _ _ => True) limit (adoptChild parent child)
      (BPlusTree.adoptChild parent child) := by
  refine fetchPage_mirrors.bind fun _ _ _ _ _ => ?_
  exact (setParentPageId_mirrors hparent).bind fun _ _ _ _ _ => unpinPage_mirrors _

/-- The children in the slots of a stored page from `i` on. -/
theorem adoptChildren_mirrors {parent : PageId} (hparent : Codec.int32.Valid parent)
    {p : PageBytes} {page : InternalPage K} (hp : InternalPage.StoredAt fmt.internal p page)
    (i : Nat) :
    Mirrors fmt base (fun _ _ _ => True) limit (adoptChildren fmt parent p i page.array.length)
      (BPlusTree.adoptChildren parent (page.array.drop i)) := by
  obtain ⟨n, hn⟩ : ∃ n, n = page.array.length - i := ⟨_, rfl⟩
  induction n generalizing i limit with
  | zero =>
      rw [adoptChildren, if_neg (by omega), List.drop_of_length_le (by omega)]
      exact .pure trivial
  | succ n ih =>
      have hi : i < page.array.length := by omega
      rw [adoptChildren, if_pos (by omega), Lays.second_ok hp hi, access_ok, pure_bind,
        List.drop_eq_getElem_cons hi, BPlusTree.adoptChildren, List.forM_cons]
      exact (adoptChild_mirrors hparent).bind fun _ _ _ _ _ => ih (i + 1) (by omega)

/-! ### The root record -/

/-- What succeeds on the records succeeds on the bytes. -/
theorem ok_of_agrees {α : Type} {x : Except Fault (α × HeaderBytes)} {a : α} {page : HeaderPage}
    (h : HeaderBytes.Agrees x (.ok (a, page))) :
    ∃ q, x = .ok (a, q) ∧ HeaderBytes.Lays q page := by
  cases x with
  | error e => exact h.elim
  | ok r =>
      obtain ⟨a', q⟩ := r
      obtain ⟨rfl, hq⟩ := h
      exact ⟨q, rfl, hq⟩

theorem writeHeader_mirrors {q : HeaderBytes} {header : HeaderPage}
    (hq : HeaderBytes.Lays q header) :
    Mirrors (K := K) (V := V) fmt base (fun _ _ _ => True) limit (writePage headerPageId q)
      (modify fun t => { t with
        headerPage := header, calls := .store headerPageId :: t.calls }) := by
  refine .modify (fun t b h => ?_) trivial
  refine { h with
    page := fun id page hpage => ?_, header := ?_, calls := congrArg (_ :: ·) h.calls
    written := congrArg (Function.update · headerPageId q) h.written }
  · obtain ⟨hid, hstored⟩ := h.page id page hpage
    have hne : id ≠ headerPageId := (Int.ne_of_lt hid.positive).symm
    dsimp only
    rw [Function.update_of_ne hne]
    exact ⟨hid, hstored⟩
  · dsimp only
    rw [Function.update_self]
    exact hq

theorem updateRootPageId_mirrors (insertRecord : Bool) :
    Mirrors fmt base (fun _ _ _ => True) limit (updateRootPageId fmt insertRecord)
      (BPlusTree.updateRootPageId fmt.toIndexParams insertRecord) := by
  refine (record_mirrors (by rfl) fun _ => by rfl).bind fun _ _ _ _ _ => ?_
  refine getRootPageId_mirrors.bind fun _ root _ _ hroot => ?_
  obtain ⟨rfl, hvalid⟩ := hroot
  refine .bind .get fun _ t b _ h => ?_
  refine .ofExcept_bind fun c hc => ?_
  obtain ⟨found, header⟩ := c
  have hname := HeaderBytes.cStr_of_no_nul fmt.noNul
  have hshort : fmt.indexName.length < 32 := by
    by_contra hlong
    rw [HeaderPage.insertRecord, if_pos hlong, HeaderPage.updateRecord, if_pos hlong] at hc
    split at hc <;> cases hc
  have hagrees : HeaderBytes.Agrees
      (if insertRecord then
          HeaderBytes.insertRecord (b.pages headerPageId) fmt.indexName root
        else HeaderBytes.updateRecord (b.pages headerPageId) fmt.indexName root)
      (.ok (found, header)) := by
    rw [← hc]
    cases insertRecord with
    | true =>
        have hinsert := h.header.insertRecord hshort hvalid.2
        rwa [hname] at hinsert
    | false =>
        have hupdate := h.header.updateRecord hshort hvalid
        rwa [hname] at hupdate
  obtain ⟨q, hq, hlays⟩ := ok_of_agrees hagrees
  simp only [hq, access_ok, pure_bind]
  exact (writeHeader_mirrors hlays).bind fun _ _ _ _ _ => unpinPage_mirrors _

end StoredTree

end ScuDb
