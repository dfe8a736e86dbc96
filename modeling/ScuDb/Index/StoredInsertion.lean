import ScuDb.Index.Stores
import ScuDb.Page.BPlusTreePageOutcome

/-!
The tree over bytes mirrors the tree over pages: search and insertion.
-/

namespace ScuDb

open Foundations PageBytes

variable {K V : Type} [Inhabited K] {fmt : TreeFormat K V} {base : PageId → PageBytes}
  {limit id : PageId}

/-- The fields of a stored page are four bytes each. -/
theorem TreePage.StoredAt.validParent {p : PageBytes} {page : TreePage K V}
    (h : page.StoredAt fmt p) : Codec.int32.Valid page.getParentPageId := by
  rw [← h.getParentPageId]
  exact LeafBytes.valid_getInt32 p 16

theorem valid_invalidPageId : Codec.int32.Valid invalidPageId := ⟨by decide, by decide⟩

theorem leafInit_stored (p : PageBytes) {parent : PageId} (hid : Codec.int32.Valid id)
    (hparent : Codec.int32.Valid parent) :
    LeafPage.StoredAt fmt.leaf (LeafBytes.init fmt.leaf p id parent)
      (LeafPage.init fmt.keySize id parent) :=
  LeafBytes.init_ok rfl fmt.key_width fmt.value_width p hid hparent

theorem internalInit_stored (p : PageBytes) {parent : PageId} (hid : Codec.int32.Valid id)
    (hparent : Codec.int32.Valid parent) :
    InternalPage.StoredAt fmt.internal (InternalBytes.init fmt.internal p id parent)
      (InternalPage.init fmt.keySize id parent) :=
  InternalBytes.init_ok rfl fmt.key_width rfl p hid hparent

namespace StoredTree

theorem writeLeaf_mirrors {p : PageBytes} {page : LeafPage K V} (hid : Allocated limit id)
    (hp : LeafPage.StoredAt fmt.leaf p page) :
    Mirrors fmt base (fun _ _ _ => True) limit (writePage id p)
      (BPlusTree.writePage id (.leaf page)) :=
  writePage_mirrors hid hp

theorem writeInternal_mirrors {p : PageBytes} {page : InternalPage K}
    (hid : Allocated limit id) (hp : InternalPage.StoredAt fmt.internal p page) :
    Mirrors fmt base (fun _ _ _ => True) limit (writePage id p)
      (BPlusTree.writePage id (.internal page)) :=
  writePage_mirrors hid hp

/-! ### Search -/

theorem findLeafFrom_mirrors (key : K) (leftMost : Bool) (op : OpType) (transaction : Bool)
    (fuel : Nat) :
    Mirrors fmt base (fun _ a b => a = b) limit
      (findLeafFrom fmt key leftMost op transaction fuel id)
      (BPlusTree.findLeafFrom fmt.toIndexParams key leftMost op transaction fuel id) := by
  induction fuel generalizing limit id with
  | zero => exact .throw
  | succ fuel ih =>
      refine readPage_mirrors.bind fun _ page p _ hp => ?_
      cases page with
      | leaf page =>
          rw [if_pos (LeafPage.StoredAt.isLeafPage hp.2)]
          exact .pure rfl
      | internal page =>
          have hstored : InternalPage.StoredAt fmt.internal p page := hp.2
          rw [if_neg hstored.not_isLeafPage]
          have hnext : (if leftMost then InternalBytes.valueAt fmt.internal p 0
              else InternalBytes.lookup fmt.internal fmt.comparator p key) =
              (if leftMost then page.valueAt 0 else page.lookup fmt.comparator key) := by
            rw [InternalBytes.valueAt_eq hstored, InternalBytes.lookup_eq hstored]
          rw [hnext]
          refine (access_mirrors _).bind fun _ next _ _ h => ?_
          rw [← h.1]
          exact (crabingProtocalFetchPage_mirrors _ _ _).bind fun _ _ _ _ _ => ih

theorem findLeafPage_mirrors (key : K) (leftMost : Bool) (op : OpType) (transaction : Bool) :
    Mirrors fmt base (fun _ a b => a = b) limit (findLeafPage fmt key leftMost op transaction)
      (BPlusTree.findLeafPage fmt.toIndexParams key leftMost op transaction) := by
  refine (lockRootPageId_mirrors _).bind fun _ _ _ _ _ => ?_
  refine getRootPageId_mirrors.bind fun _ root _ _ hroot => ?_
  obtain ⟨rfl, -⟩ := hroot
  refine .ite Iff.rfl (fun _ => ?_) fun _ => .bind .get fun _ t b _ h => ?_
  · exact (tryUnlockRootPageId_mirrors _).bind fun _ _ _ _ _ => .pure rfl
  · rw [h.next.1, h.next.2]
    refine (crabingProtocalFetchPage_mirrors _ _ _).bind fun _ _ _ _ _ => ?_
    refine (findLeafFrom_mirrors key leftMost op transaction _).bind fun _ _ _ _ hleaf => ?_
    exact .pure (congrArg some hleaf)

theorem getValue_mirrors [Inhabited V] (key : K) (result : List V) (transaction : Bool) :
    Mirrors fmt base (fun _ a b => a = b) limit (getValue fmt key result transaction)
      (BPlusTree.getValue fmt.toIndexParams key result transaction) := by
  refine (findLeafPage_mirrors key false .read transaction).bind fun _ found found' _ hfound => ?_
  subst hfound
  cases found with
  | none => exact .pure rfl
  | some leaf =>
      refine leafAt_mirrors.bind fun _ page p _ hp => ?_
      rw [LeafBytes.lookup_eq hp.2, access_ok, pure_bind, hp.2.lays.pageId]
      exact (freePagesInTransaction_mirrors _ _ _).bind fun _ _ _ _ _ => .pure rfl

/-! ### Splits -/

theorem startNewTree_mirrors {key : K} {value : V} (hkey : fmt.key.Valid key)
    (hvalue : fmt.value.Valid value) :
    Mirrors fmt base (fun _ _ _ => True) limit (startNewTree fmt key value)
      (BPlusTree.startNewTree fmt.toIndexParams key value) := by
  refine newPage_mirrors.bind fun _ id _ _ h => ?_
  -- a new page has been zeroed, and `Init` makes it an empty leaf
  obtain ⟨rfl, hid⟩ := h
  have hinit : LeafPage.StoredAt fmt.leaf _ _ :=
    leafInit_stored (fun _ => 0) hid.valid valid_invalidPageId
  refine (writeLeaf_mirrors hid hinit).bind fun _ _ _ _ _ => ?_
  refine (setRootPageId_mirrors hid.valid).bind fun _ _ _ _ _ => ?_
  refine (updateRootPageId_mirrors true).bind fun _ _ _ _ _ => ?_
  refine leafAt_mirrors.bind fun _ root p _ hp => .ofExcept_bind fun root' hinsert => ?_
  obtain ⟨q, hq, hstored⟩ := LeafBytes.insert_ok hp.2 hkey hvalue hinsert
  rw [hq, access_ok, pure_bind]
  exact (writeLeaf_mirrors hp.1 hstored).bind fun _ _ _ _ _ => unpinPage_mirrors _

theorem split_mirrors (transaction : Bool) :
    Mirrors fmt base (fun limit a b => a = b ∧ Allocated limit a) limit
      (split fmt transaction id) (BPlusTree.split fmt.toIndexParams transaction id) := by
  refine newPage_mirrors.bind fun _ newId _ _ h => ?_
  obtain ⟨rfl, hid⟩ := h
  refine (record_mirrors (by rfl) fun _ => by rfl).bind fun _ _ _ hle _ => ?_
  refine (addIntoPageSet_mirrors _).bind fun _ _ _ hle' _ => ?_
  refine readPage_mirrors.bind fun limit page p hle'' hp => ?_
  replace hid : Allocated limit newId := hid.mono (hle.trans (hle'.trans hle''))
  have hparent := hp.2.getParentPageId
  have hvalid := hp.2.validParent
  cases page with
  | leaf page =>
      rw [if_pos (LeafPage.StoredAt.isLeafPage hp.2), hparent]
      refine .ofExcept_bind fun pages hmove => ?_
      obtain ⟨q, s, hmove', hq, hs⟩ := LeafBytes.moveHalfTo_ok hp.2
        (leafInit_stored (fun _ => 0) hid.valid hvalid) hmove
      simp only [hmove', access_ok, pure_bind]
      refine (writeLeaf_mirrors hid hs).bind fun _ _ _ hle _ => ?_
      refine (writeLeaf_mirrors (hp.1.mono hle) hq).bind fun _ _ _ hle' _ => ?_
      exact .pure ⟨rfl, hid.mono (hle.trans hle')⟩
  | internal page =>
      have hstored : InternalPage.StoredAt fmt.internal p page := hp.2
      rw [if_neg hstored.not_isLeafPage, hparent]
      refine .ofExcept_bind fun pages hmove => ?_
      obtain ⟨q, s, hmove', hq, hs⟩ := InternalBytes.moveHalfTo_ok hstored
        (internalInit_stored (fun _ => 0) hid.valid hvalid) hmove
      obtain ⟨htotal, hchildren⟩ := InternalPage.moveHalfTo_children hmove
      have hmax := hstored.maxSize
      have hlast : p.getMaxSize + 1 = page.array.length := by omega
      have hmid : (p.getMaxSize + 1).tdiv 2 = (page.array.length / 2 : Nat) := by
        rw [hlast]
        exact Int.ofNat_tdiv _ _
      simp only [hmove', access_ok, pure_bind]
      refine (writeInternal_mirrors hid hs).bind fun _ _ _ hle _ => ?_
      refine (writeInternal_mirrors (hp.1.mono hle) hq).bind fun _ _ _ hle' _ => ?_
      rw [hmid, hlast, hchildren]
      refine (adoptChildren_mirrors hid.valid hstored _).bind fun _ _ _ hle'' _ => ?_
      exact .pure ⟨rfl, hid.mono (hle.trans (hle'.trans hle''))⟩

theorem validKey_of_keyAt {p : PageBytes} {page : InternalPage K} {index : Int} {key : K}
    (hp : InternalPage.StoredAt fmt.internal p page) (h : page.keyAt index = .ok key) :
    fmt.key.Valid key := by
  obtain ⟨e, he, rfl⟩ := InternalPage.keyAt_ok h
  exact (Lays.valid hp e he).1

theorem leafKeyAt {p : PageBytes} {page : LeafPage K V} {key : K}
    (hp : LeafPage.StoredAt fmt.leaf p page) (h : page.keyAt 0 = .ok key) :
    fmt.leaf.keyAt p 0 = .ok key ∧ fmt.key.Valid key := by
  cases hget : page.array[0]? with
  | none =>
      rw [LeafPage.keyAt, hget] at h
      cases h
  | some e =>
      rw [LeafPage.keyAt, hget] at h
      cases h
      obtain ⟨hlt, rfl⟩ := List.getElem?_eq_some_iff.mp hget
      exact ⟨hp.lays.keyAt_ok hlt, (hp.lays.valid _ (List.getElem_mem hlt)).1⟩

theorem internalInit_zeros {parent : PageId} :
    (InternalBytes.init fmt.internal (fun _ => 0) id parent).Holds fmt.internal.base
      (fmt.internal.key.encode default) := by
  have hkey : fmt.internal.key.encode default = List.replicate fmt.key.width 0 := fmt.encode_default
  have hzeros (off n : Nat) : Memory.Holds (fun _ => 0) off (List.replicate n 0) := by
    rw [Memory.Holds, Memory.read, List.map_const', List.length_range, List.length_replicate]
  rw [hkey]
  refine (hzeros 24 _).congr fun i _ => ?_
  have hbase : fmt.internal.base = 24 := rfl
  rw [InternalBytes.init, setMaxSize, Memory.setInt32_of_not_mem (.inr (by omega)),
    setPageType, Memory.setInt32_of_not_mem (.inr (by omega)),
    PageBytes.setParentPageId, Memory.setInt32_of_not_mem (.inr (by omega)),
    setPageId, Memory.setInt32_of_not_mem (.inr (by omega)),
    setSize, Memory.setInt32_of_not_mem (.inr (by omega))]

theorem growRoot_mirrors {oldNode newNode : PageId} {key : K} (hkey : fmt.key.Valid key)
    (hold : Codec.int32.Valid oldNode) (hnew : Codec.int32.Valid newNode) :
    Mirrors fmt base (fun _ _ _ => True) limit (growRoot fmt oldNode key newNode)
      (BPlusTree.growRoot fmt.toIndexParams oldNode key newNode) := by
  refine newPage_mirrors.bind fun _ id _ _ h => ?_
  obtain ⟨rfl, hid⟩ := h
  refine (setRootPageId_mirrors hid.valid).bind fun _ _ _ hle _ => ?_
  refine .ofExcept_bind fun root hroot => ?_
  obtain ⟨q, hq, hstored⟩ := InternalBytes.populateNewRoot_ok
    (internalInit_stored (fun _ => 0) hid.valid valid_invalidPageId) internalInit_zeros
    fmt.valid_default hkey hold hnew hroot
  rw [hq, access_ok, pure_bind]
  refine (writeInternal_mirrors (hid.mono hle) hstored).bind fun _ _ _ _ _ => ?_
  refine (setParentPageId_mirrors hid.valid).bind fun _ _ _ _ _ => ?_
  refine (setParentPageId_mirrors hid.valid).bind fun _ _ _ _ _ => ?_
  exact (updateRootPageId_mirrors false).bind fun _ _ _ _ _ => unpinPage_mirrors _

theorem insertIntoParent_mirrors {oldNode newNode : PageId} {key : K} (transaction : Bool)
    (fuel : Nat) (hkey : fmt.key.Valid key) (hold : Codec.int32.Valid oldNode)
    (hnew : Codec.int32.Valid newNode) :
    Mirrors fmt base (fun _ _ _ => True) limit
      (insertIntoParent fmt transaction fuel oldNode key newNode)
      (BPlusTree.insertIntoParent fmt.toIndexParams transaction fuel oldNode key newNode) := by
  induction fuel generalizing limit oldNode newNode key with
  | zero => exact .throw
  | succ fuel ih =>
      refine readPage_mirrors.bind fun _ page p _ hp => ?_
      refine .ite (by rw [hp.2.isRootPage]) (fun _ => growRoot_mirrors hkey hold hnew) fun _ => ?_
      have hvalid := hp.2.validParent
      rw [hp.2.getParentPageId]
      refine fetchPage_mirrors.bind fun _ _ _ _ _ => ?_
      refine (setParentPageId_mirrors hvalid).bind fun _ _ _ _ _ => ?_
      refine internalAt_mirrors.bind fun _ parent q _ hq => .ofExcept_bind fun parent' hinsert => ?_
      obtain ⟨s, hs, hstored⟩ := InternalBytes.insertNodeAfter_ok hq.2 hkey hnew hinsert
      simp only [hs, access_ok, pure_bind]
      refine (writeInternal_mirrors hq.1 hstored).bind fun _ _ _ _ _ => ?_
      refine .bind (P := fun _ _ _ => True) ?_ fun _ _ _ _ _ => unpinPage_mirrors _
      rw [Lays.size hstored, Lays.maxSize hstored]
      refine .ite (by simp only [gt_iff_lt, Int.ofNat_lt]) (fun _ => ?_) fun _ => .pure trivial
      refine (split_mirrors transaction).bind fun _ newId _ _ h => ?_
      obtain ⟨rfl, hnewId⟩ := h
      refine internalAt_mirrors.bind fun _ newParent r _ hr => ?_
      rw [InternalBytes.keyAt_eq hr.2]
      refine (access_mirrors _).bind fun _ newKey _ _ h => ?_
      obtain ⟨rfl, hkeyAt⟩ := h
      exact ih (validKey_of_keyAt hr.2 hkeyAt) hvalid hnewId.valid

/-! ### Insertion -/

theorem insertIntoLeaf_mirrors {key : K} {value : V} (transaction : Bool)
    (hkey : fmt.key.Valid key) (hvalue : fmt.value.Valid value) :
    Mirrors fmt base (fun _ a b => a = b) limit (insertIntoLeaf fmt key value transaction)
      (BPlusTree.insertIntoLeaf fmt.toIndexParams key value transaction) := by
  refine (findLeafPage_mirrors key false .insert transaction).bind fun _ found found' _ hfound => ?_
  subst hfound
  cases found with
  | none => exact .throw
  | some leaf =>
      refine leafAt_mirrors.bind fun _ page p _ hp => ?_
      rw [LeafBytes.lookup_eq hp.2, access_ok, pure_bind]
      cases page.lookup fmt.comparator key with
      | some _ =>
          exact (freePagesInTransaction_mirrors _ _ _).bind fun _ _ _ _ _ => .pure rfl
      | none =>
          refine .ofExcept_bind fun page' hinsert => ?_
          obtain ⟨q, hq, hstored⟩ := LeafBytes.insert_ok hp.2 hkey hvalue hinsert
          simp only [hq, access_ok, pure_bind]
          refine (writeLeaf_mirrors hp.1 hstored).bind fun _ _ _ _ _ => ?_
          refine .bind (P := fun _ _ _ => True) ?_ fun _ _ _ _ _ =>
            (freePagesInTransaction_mirrors _ _ _).bind fun _ _ _ _ _ => .pure rfl
          rw [hstored.lays.size, hstored.lays.maxSize]
          refine .ite (by simp only [gt_iff_lt, Int.ofNat_lt]) (fun _ => ?_) fun _ => .pure trivial
          refine (split_mirrors transaction).bind fun _ newId _ _ h => ?_
          obtain ⟨rfl, hnewId⟩ := h
          refine leafAt_mirrors.bind fun _ newLeaf r _ hr => .ofExcept_bind fun newKey hkeyAt => ?_
          obtain ⟨hfirst, hvalid⟩ := leafKeyAt hr.2 hkeyAt
          rw [hfirst, access_ok, pure_bind]
          refine .bind .get fun _ t b _ h => ?_
          rw [h.next.1, h.next.2]
          exact insertIntoParent_mirrors transaction _ hvalid hp.1.valid hnewId.valid

theorem insert_mirrors {key : K} {value : V} (transaction : Bool) (hkey : fmt.key.Valid key)
    (hvalue : fmt.value.Valid value) :
    Mirrors fmt base (fun _ a b => a = b) limit (insert fmt key value transaction)
      (BPlusTree.insert fmt.toIndexParams key value transaction) := by
  refine (lockRootPageId_mirrors _).bind fun _ _ _ _ _ => ?_
  refine getRootPageId_mirrors.bind fun _ root _ _ hroot => ?_
  obtain ⟨rfl, -⟩ := hroot
  refine .ite Iff.rfl (fun _ => ?_) fun _ => ?_
  · refine (startNewTree_mirrors hkey hvalue).bind fun _ _ _ _ _ => ?_
    exact (tryUnlockRootPageId_mirrors _).bind fun _ _ _ _ _ => .pure rfl
  · exact (tryUnlockRootPageId_mirrors _).bind fun _ _ _ _ _ =>
      insertIntoLeaf_mirrors transaction hkey hvalue

end StoredTree

end ScuDb
