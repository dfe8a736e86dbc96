import ScuDb.Index.StoredInsertion

/-!
The tree over bytes mirrors the tree over pages: removal.
-/

namespace ScuDb

open Foundations PageBytes

variable {K V : Type} [Inhabited K] {fmt : TreeFormat K V} {base : PageId → PageBytes}
  {limit id : PageId}

theorem validChild {p : PageBytes} {page : InternalPage K} {child : PageId}
    (hp : InternalPage.StoredAt fmt.internal p page) (h : child ∈ page.array.map Prod.snd) :
    Codec.int32.Valid child := by
  obtain ⟨e, he, rfl⟩ := List.mem_map.mp h
  exact (Lays.valid hp e he).2

/-- What the source reads as `array[0].first`. -/
theorem leafFirst {p : PageBytes} {page : LeafPage K V} {e : K × V}
    (hp : LeafPage.StoredAt fmt.leaf p page) (h : page.getItem 0 = .ok e) :
    fmt.leaf.first p 0 = .ok e.1 ∧ fmt.key.Valid e.1 := by
  cases hget : page.array[0]? with
  | none =>
      rw [LeafPage.getItem, hget] at h
      cases h
  | some e' =>
      rw [LeafPage.getItem, hget] at h
      cases h
      obtain ⟨hlt, rfl⟩ := List.getElem?_eq_some_iff.mp hget
      exact ⟨hp.lays.first_ok hlt, (hp.lays.valid _ (List.getElem_mem hlt)).1⟩

theorem internalFirst {p : PageBytes} {page : InternalPage K} {key : K}
    (hp : InternalPage.StoredAt fmt.internal p page) (h : page.keyAt 0 = .ok key) :
    fmt.internal.first p 0 = .ok key := by
  rw [← InternalBytes.keyAt_eq hp, EntryFormat.keyAt] at h
  split at h
  · cases h
  · exact h

theorem validPageId {p : PageBytes} {page : InternalPage K}
    (hp : InternalPage.StoredAt fmt.internal p page) : Codec.int32.Valid page.pageId := by
  rw [← Lays.pageId hp]
  exact LeafBytes.valid_getInt32 p 20

namespace StoredTree

/-! ### The root -/

theorem adjustRoot_mirrors :
    Mirrors fmt base (fun _ a b => a = b) limit (adjustRoot fmt id)
      (BPlusTree.adjustRoot fmt.toIndexParams id) := by
  refine readPage_mirrors.bind fun _ page p _ hp => ?_
  cases page with
  | leaf page =>
      rw [if_pos (LeafPage.StoredAt.isLeafPage hp.2)]
      refine (setRootPageId_mirrors valid_invalidPageId).bind fun _ _ _ _ _ => ?_
      exact (updateRootPageId_mirrors false).bind fun _ _ _ _ _ => .pure rfl
  | internal page =>
      have hstored : InternalPage.StoredAt fmt.internal p page := hp.2
      rw [if_neg hstored.not_isLeafPage, Lays.size hstored]
      refine .ite (by omega) (fun _ => .ofExcept_bind fun r hremove => ?_) fun _ => .pure rfl
      obtain ⟨newRootId, page'⟩ := r
      have hchild := validChild hstored (InternalPage.removeAndReturnOnlyChild_ok hremove).2
      obtain ⟨q, hq, hq'⟩ := InternalBytes.removeAndReturnOnlyChild_ok hstored hremove
      simp only [hq, access_ok, pure_bind]
      refine (writeInternal_mirrors hp.1 hq').bind fun _ _ _ _ _ => ?_
      refine (setRootPageId_mirrors hchild).bind fun _ _ _ _ _ => ?_
      refine (updateRootPageId_mirrors false).bind fun _ _ _ _ _ => ?_
      exact (adoptChild_mirrors valid_invalidPageId).bind fun _ _ _ _ _ => .pure rfl

/-! ### Siblings -/

theorem findLeftSibling_mirrors (transaction : Bool) :
    Mirrors fmt base (fun _ a b => a = b) limit (findLeftSibling fmt transaction id)
      (BPlusTree.findLeftSibling transaction id) := by
  refine readPage_mirrors.bind fun _ page p _ hp => ?_
  rw [hp.2.getParentPageId]
  refine fetchPage_mirrors.bind fun _ _ _ _ _ => ?_
  refine internalAt_mirrors.bind fun _ parent q _ hq => ?_
  rw [InternalBytes.valueIndex_eq hq.2, access_ok, pure_bind, InternalBytes.valueAt_eq hq.2,
    hp.2.getPageId]
  refine (access_mirrors _).bind fun _ sibling _ _ h => ?_
  rw [← h.1]
  refine (crabingProtocalFetchPage_mirrors _ _ _).bind fun _ _ _ _ _ => ?_
  rw [Lays.pageId hq.2]
  exact (unpinPage_mirrors _).bind fun _ _ _ _ _ => .pure rfl

theorem setParentKeyAt_mirrors {parentId : PageId} {index : InternalPage K → Int}
    {index' : PageBytes → Except Fault Int} {key : K} (hkey : fmt.key.Valid key)
    (hindex : ∀ p page, InternalPage.StoredAt fmt.internal p page → index' p = .ok (index page)) :
    Mirrors fmt base (fun _ _ _ => True) limit (setParentKeyAt fmt parentId index' key)
      (BPlusTree.setParentKeyAt parentId index key) := by
  refine fetchPage_mirrors.bind fun _ _ _ _ _ => ?_
  refine internalAt_mirrors.bind fun _ parent p _ hp => .ofExcept_bind fun parent' hset => ?_
  obtain ⟨q, hq, hstored⟩ := InternalBytes.setKeyAt_ok hp.2 hkey hset
  simp only [hindex p parent hp.2, hq, access_ok, pure_bind]
  exact (writeInternal_mirrors hp.1 hstored).bind fun _ _ _ _ _ => unpinPage_mirrors _

/-! ### Merging -/

theorem moveAllTo_mirrors {recipient : PageId} (indexInParent : Int) :
    Mirrors fmt base (fun _ _ _ => True) limit (moveAllTo fmt id recipient indexInParent)
      (BPlusTree.moveAllTo id recipient indexInParent) := by
  refine readPage_mirrors.bind fun _ page p _ hp => ?_
  cases page with
  | leaf page =>
      refine leafAt_mirrors.bind fun _ target r hle hr => .ofExcept_bind fun pages hmove => ?_
      obtain ⟨q, s, hmove', hq, hs⟩ := LeafBytes.moveAllTo_ok hp.2 hr.2 hmove
      rw [if_pos (LeafPage.StoredAt.isLeafPage hp.2)]
      simp only [hmove', access_ok, pure_bind]
      refine (writeLeaf_mirrors hr.1 hs).bind fun _ _ _ hle' _ => ?_
      exact writeLeaf_mirrors (hp.1.mono (hle.trans hle')) hq
  | internal page =>
      have hstored : InternalPage.StoredAt fmt.internal p page := hp.2
      refine internalAt_mirrors.bind fun _ target r hle hr => ?_
      -- the separator comes from the parent, which is looked at in between
      rw [if_neg hstored.not_isLeafPage, Lays.parent hstored]
      refine fetchPage_mirrors.bind fun _ _ _ hle₁ _ => ?_
      refine internalAt_mirrors.bind fun _ parent m hle₂ hm => ?_
      rw [InternalBytes.keyAt_eq hm.2]
      refine (access_mirrors _).bind fun _ separator _ hle₃ h => ?_
      obtain ⟨rfl, hkeyAt⟩ := h
      rw [Lays.pageId hm.2]
      refine (unpinPage_mirrors _).bind fun _ _ _ hle₄ _ => .ofExcept_bind fun pages hmove => ?_
      obtain ⟨q, s, hmove', hq, hs⟩ := InternalBytes.moveAllTo_ok hstored hr.2
        (validKey_of_keyAt hm.2 hkeyAt) hmove
      simp only [hmove', access_ok, pure_bind]
      have hle' := hle₁.trans (hle₂.trans (hle₃.trans hle₄))
      refine (writeInternal_mirrors (hr.1.mono hle') hs).bind fun _ _ _ hle₅ _ => ?_
      refine (writeInternal_mirrors (hp.1.mono (hle.trans (hle'.trans hle₅))) hq).bind
        fun _ _ _ _ _ => ?_
      rw [Lays.pageId hs, Lays.size hstored]
      exact adoptChildren_mirrors (validPageId hs) hstored 0

/-! ### Redistribution -/

theorem moveFirstToEndOf_mirrors {recipient : PageId} :
    Mirrors fmt base (fun _ _ _ => True) limit (moveFirstToEndOf fmt id recipient)
      (BPlusTree.moveFirstToEndOf id recipient) := by
  refine readPage_mirrors.bind fun _ page p _ hp => ?_
  cases page with
  | leaf page =>
      refine leafAt_mirrors.bind fun _ target r hle hr => .ofExcept_bind fun pages hmove => ?_
      obtain ⟨q, s, hmove', hq, hs⟩ := LeafBytes.moveFirstToEndOf_ok hp.2 hr.2 hmove
      rw [if_pos (LeafPage.StoredAt.isLeafPage hp.2)]
      simp only [hmove', access_ok, pure_bind]
      refine (writeLeaf_mirrors (hp.1.mono hle) hq).bind fun _ _ _ hle' _ => ?_
      refine (writeLeaf_mirrors (hr.1.mono hle') hs).bind fun _ _ _ _ _ => ?_
      -- the separator of the page that has lost its first entry
      refine .ofExcept_bind fun first hfirst => ?_
      obtain ⟨hfirst', hvalid⟩ := leafFirst hq hfirst
      rw [hfirst', access_ok, pure_bind, hq.lays.parent]
      refine setParentKeyAt_mirrors hvalid fun m parent hm => ?_
      rw [InternalBytes.valueIndex_eq hm, hq.lays.pageId]
  | internal page =>
      have hstored : InternalPage.StoredAt fmt.internal p page := hp.2
      refine internalAt_mirrors.bind fun _ target r hle hr => ?_
      rw [if_neg hstored.not_isLeafPage, InternalBytes.valueAt_eq hstored]
      refine (access_mirrors _).bind fun _ child _ hle₁ h => .ofExcept_bind fun pages hmove => ?_
      rw [← h.1]
      obtain ⟨q, s, hmove', hq, hs⟩ := InternalBytes.moveFirstToEndOf_ok hstored hr.2 hmove
      simp only [hmove', access_ok, pure_bind]
      refine (writeInternal_mirrors (hp.1.mono (hle.trans hle₁)) hq).bind fun _ _ _ hle₂ _ => ?_
      refine (writeInternal_mirrors (hr.1.mono (hle₁.trans hle₂)) hs).bind fun _ _ _ _ _ => ?_
      rw [Lays.pageId hs]
      refine (adoptChild_mirrors (validPageId hs)).bind
        fun _ _ _ _ _ => .ofExcept_bind fun first hfirst => ?_
      rw [internalFirst hq hfirst, access_ok, pure_bind, Lays.parent hq]
      refine setParentKeyAt_mirrors (validKey_of_keyAt hq hfirst) fun m parent hm => ?_
      rw [InternalBytes.valueIndex_eq hm, Lays.pageId hq]

theorem moveLastToFrontOf_mirrors {recipient : PageId} (parentIndex : Int) :
    Mirrors fmt base (fun _ _ _ => True) limit (moveLastToFrontOf fmt id recipient parentIndex)
      (BPlusTree.moveLastToFrontOf id recipient parentIndex) := by
  refine readPage_mirrors.bind fun _ page p _ hp => ?_
  cases page with
  | leaf page =>
      refine leafAt_mirrors.bind fun _ target r hle hr => .ofExcept_bind fun pages hmove => ?_
      obtain ⟨q, s, hmove', hq, hs⟩ := LeafBytes.moveLastToFrontOf_ok hp.2 hr.2 hmove
      rw [if_pos (LeafPage.StoredAt.isLeafPage hp.2)]
      simp only [hmove', access_ok, pure_bind]
      refine (writeLeaf_mirrors (hp.1.mono hle) hq).bind fun _ _ _ hle' _ => ?_
      refine (writeLeaf_mirrors (hr.1.mono hle') hs).bind fun _ _ _ _ _ => ?_
      -- the separator of the page that has a new first entry
      refine .ofExcept_bind fun first hfirst => ?_
      obtain ⟨hfirst', hvalid⟩ := leafFirst hs hfirst
      rw [hfirst', access_ok, pure_bind, hs.lays.parent]
      exact setParentKeyAt_mirrors hvalid fun _ _ _ => rfl
  | internal page =>
      have hstored : InternalPage.StoredAt fmt.internal p page := hp.2
      refine internalAt_mirrors.bind fun _ target r hle hr => ?_
      rw [if_neg hstored.not_isLeafPage, InternalBytes.valueAt_eq hstored, Lays.size hstored]
      refine (access_mirrors _).bind fun _ child _ hle₁ h => .ofExcept_bind fun pages hmove => ?_
      rw [← h.1]
      obtain ⟨q, s, hmove', hq, hs⟩ := InternalBytes.moveLastToFrontOf_ok hstored hr.2 hmove
      simp only [hmove', access_ok, pure_bind]
      refine (writeInternal_mirrors (hp.1.mono (hle.trans hle₁)) hq).bind fun _ _ _ hle₂ _ => ?_
      refine (writeInternal_mirrors (hr.1.mono (hle₁.trans hle₂)) hs).bind fun _ _ _ _ _ => ?_
      rw [Lays.pageId hs]
      refine (adoptChild_mirrors (validPageId hs)).bind
        fun _ _ _ _ _ => .ofExcept_bind fun first hfirst => ?_
      rw [internalFirst hs hfirst, access_ok, pure_bind, Lays.parent hs]
      exact setParentKeyAt_mirrors (validKey_of_keyAt hs hfirst) fun _ _ _ => rfl

theorem redistribute_mirrors {node : PageId} (index : Int) :
    Mirrors fmt base (fun _ _ _ => True) limit (redistribute fmt id node index)
      (BPlusTree.redistribute id node index) :=
  .ite Iff.rfl (fun _ => moveFirstToEndOf_mirrors) fun _ => moveLastToFrontOf_mirrors index

/-! ### Removal -/

theorem coalesce_mirrors (transaction : Bool) {continueWith : PageId → TreeM K V Bool}
    {continueWith' : PageId → StoredM Bool}
    (hcontinue : ∀ limit id, Mirrors fmt base (fun _ a b => a = b) limit (continueWith' id)
      (continueWith id)) (neighbor node parentId : PageId) (index : Int) :
    Mirrors fmt base (fun _ a b => a = b) limit
      (coalesce fmt transaction continueWith' neighbor node parentId index)
      (BPlusTree.coalesce transaction continueWith neighbor node parentId index) := by
  refine (moveAllTo_mirrors index).bind fun _ _ _ _ _ => ?_
  refine (addIntoDeletedPageSet_mirrors _).bind fun _ _ _ _ _ => ?_
  refine internalAt_mirrors.bind fun _ parent p _ hp => .ofExcept_bind fun parent' hremove => ?_
  obtain ⟨q, hq, hstored⟩ := InternalBytes.remove_ok hp.2 hremove
  simp only [hq, access_ok, pure_bind]
  refine (writeInternal_mirrors hp.1 hstored).bind fun _ _ _ _ _ => ?_
  have hmin : q.getMinSize = (TreePage.internal parent' : TreePage K V).getMinSize :=
    (show (TreePage.internal parent').StoredAt fmt q from hstored).getMinSize
  rw [Lays.size hstored, hmin]
  exact .ite Int.ofNat_le.symm (fun _ => hcontinue _ _) fun _ => .pure rfl

theorem coalesceOrRedistribute_mirrors (transaction : Bool) (fuel : Nat) :
    Mirrors fmt base (fun _ a b => a = b) limit (coalesceOrRedistribute fmt transaction fuel id)
      (BPlusTree.coalesceOrRedistribute fmt.toIndexParams transaction fuel id) := by
  induction fuel generalizing limit id with
  | zero => exact .throw
  | succ fuel ih =>
      refine readPage_mirrors.bind fun _ page p _ hp => ?_
      -- the root has no siblings
      refine .ite (by rw [hp.2.isRootPage]) (fun _ => ?_) fun _ => ?_
      · refine adjustRoot_mirrors.bind fun _ del _ _ hdel => ?_
        subst hdel
        refine .bind (P := fun _ _ _ => True) ?_ fun _ _ _ _ _ => .pure rfl
        exact .ite Iff.rfl (fun _ => addIntoDeletedPageSet_mirrors _) fun _ => .pure trivial
      · refine (findLeftSibling_mirrors transaction).bind fun _ sibling _ _ h => ?_
        subst h
        rw [hp.2.getParentPageId]
        refine fetchPage_mirrors.bind fun _ _ _ _ _ => ?_
        refine internalAt_mirrors.bind fun _ parent q _ hq => ?_
        refine readPage_mirrors.bind fun _ page2 r _ hr => ?_
        rw [hp.2.getSize, hr.2.getSize, hp.2.getMaxSize]
        refine .ite (by omega) (fun _ => ?_) fun _ => ?_
        · simp only [InternalBytes.valueIndex_eq hq.2, access_ok, pure_bind]
          refine (coalesce_mirrors transaction (fun _ _ => ih) _ _ _ _).bind fun _ _ _ _ _ => ?_
          exact (unpinPage_mirrors _).bind fun _ _ _ _ _ => .pure rfl
        · simp only [InternalBytes.valueIndex_eq hq.2, access_ok, pure_bind]
          refine (redistribute_mirrors _).bind fun _ _ _ _ _ => ?_
          exact (unpinPage_mirrors _).bind fun _ _ _ _ _ => .pure rfl

theorem remove_mirrors (key : K) (transaction : Bool) :
    Mirrors fmt base (fun _ _ _ => True) limit (remove fmt key transaction)
      (BPlusTree.remove fmt.toIndexParams key transaction) := by
  refine getRootPageId_mirrors.bind fun _ root _ _ hroot => ?_
  obtain ⟨rfl, -⟩ := hroot
  refine .ite Iff.rfl (fun _ => .pure trivial) fun _ => ?_
  refine (findLeafPage_mirrors key false .delete transaction).bind fun _ found found' _ hfound => ?_
  subst hfound
  cases found with
  | none => exact .throw
  | some leaf =>
      refine leafAt_mirrors.bind fun _ page p _ hp => ?_
      obtain ⟨q, hq, hstored⟩ := LeafBytes.removeAndDeleteRecord_ok hp.2 fmt.comparator key
      simp only [hq, access_ok, pure_bind]
      refine (writeLeaf_mirrors hp.1 hstored).bind fun _ _ _ _ _ => ?_
      have hmin := (show (TreePage.leaf _).StoredAt fmt q from hstored).getMinSize
      rw [hmin]
      refine .bind (P := fun _ _ _ => True) ?_ fun _ _ _ _ _ => freePagesInTransaction_mirrors _ _ _
      refine .ite Int.ofNat_lt.symm (fun _ => ?_) fun _ => .pure trivial
      refine .bind .get fun _ t b _ h => ?_
      rw [h.next.1, h.next.2]
      exact (coalesceOrRedistribute_mirrors transaction _).bind fun _ _ _ _ _ => .pure trivial

end StoredTree

end ScuDb
