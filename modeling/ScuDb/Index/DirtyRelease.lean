import ScuDb.Index.DirtyPages

/-!
The descent and the release, and with them whole operations: after an
insertion or a removal no change of a page is owed.
-/

namespace ScuDb

open Foundations

variable {K V : Type}

namespace BPlusTree

variable {u₀ : DirtyUse} {extra : PageId → Nat} {mine : List PageId} {t₀ t : BPlusTree K V}

/-! ### Releasing pages -/

/-- The loop over the page set unpins every page as dirty. -/
theorem Kept.wlp_freePages {ids : List PageId} (h : Kept u₀ t₀ extra mine ids t) :
    wlp (forM ids (freePage true)) (fun _ s => Kept u₀ t₀ extra mine [] s ∧
      s.nextPageId = t.nextPageId) t := by
  induction ids generalizing t with
  | nil =>
      rw [List.forM_nil, wlp_pure]
      exact ⟨h, rfl⟩
  | cons id ids ih =>
      have hbounds := h.bounds id List.mem_cons_self
      have hreleased := (h.latch (.unlock true id) fun _ => rfl).release
      rw [List.forM_cons, wlp_bind]
      simp only [freePage, wlp_bind, wlp_record, wlp_unpinPage, wlp_get, wlp_ite, wlp_pure,
        deletePage, wlp_modify]
      refine ⟨fun _ => ?_, fun _ => ih hreleased⟩
      exact ih ((hreleased.delete hbounds).congr rfl rfl rfl rfl)

theorem Kept.wlp_freePagesInTransaction (h : Kept u₀ t₀ extra mine t.pageSet t) (cur : PageId) :
    wlp (freePagesInTransaction true true cur) (fun _ s => Kept u₀ t₀ extra mine [] s ∧
      s.pageSet = [] ∧ s.nextPageId = t.nextPageId) t := by
  have hloop : ∀ s : BPlusTree K V, Kept u₀ t₀ extra mine s.pageSet s →
      s.nextPageId = t.nextPageId →
      wlp (forM s.pageSet (freePage true) : TreeM K V PUnit) (fun _ s' =>
        s'.deletedPageSet = [] → Kept u₀ t₀ extra mine [] { s' with pageSet := [] } ∧ True ∧
          s'.nextPageId = t.nextPageId) s := by
    intro s hs hnext
    refine wlp_mono hs.wlp_freePages ?_
    rintro _ s' ⟨hs', hnext'⟩ -
    exact ⟨hs'.congr rfl rfl rfl rfl, trivial, hnext'.trans hnext⟩
  simp only [freePagesInTransaction, tryUnlockRootPageId, wlp_bind, wlp_modify,
    Bool.true_eq_false, if_false, wlp_get, wlp_require]
  split
  · refine hloop { t with
      rootLockedCnt := t.rootLockedCnt - 1, calls := .unlockRoot true :: t.calls } ?_ rfl
    exact (h.latch (.unlockRoot true) fun _ => rfl).congr rfl rfl rfl rfl
  · exact hloop t h rfl

/-! ### The descent -/

theorem Kept.wlp_crabingProtocalFetchPage (h : Kept u₀ t₀ extra mine t.pageSet t) {op : OpType}
    (hop : op ≠ .read) (id previous : PageId) :
    wlp (crabingProtocalFetchPage id op previous true) (fun _ s =>
      Kept u₀ t₀ extra mine s.pageSet s ∧ id ∈ s.pageSet) t := by
  have hexclusive : decide (op ≠ .read) = true := decide_eq_true hop
  simp only [crabingProtocalFetchPage, wlp_bind, wlp_fetchPage, wlp_record, wlp_readPage,
    hexclusive, Bool.true_eq_false, if_false, if_true]
  intro page hpage _ _
  have hid := h.allocated id page hpage
  have hlatched := (h.fetch hpage).latch (.lock true id) fun _ => rfl
  -- the page is pinned, and joins whatever is left of the page set
  have hjoin : ∀ s : BPlusTree K V, Kept u₀ t₀ (addPin extra id) mine s.pageSet s →
      s.nextPageId = t.nextPageId →
      Kept u₀ t₀ extra mine (s.pageSet ++ [id]) { s with pageSet := s.pageSet ++ [id] } ∧
        id ∈ s.pageSet ++ [id] := by
    intro s hs hnext
    refine ⟨(hs.join h.pinned (fun _ => Or.inr) (hnext ▸ hid)).congr rfl rfl rfl rfl, ?_⟩
    simp
  have hrest : ∀ release : Bool, wlp (if release = true then
      freePagesInTransaction true true previous else pure ()) (fun _ s =>
        wlp (addIntoPageSet true id : TreeM K V Unit) (fun _ s =>
          Kept u₀ t₀ extra mine s.pageSet s ∧ id ∈ s.pageSet) s)
      { t with calls := .lock true id :: .fetchPage id :: t.calls } := by
    intro release
    rw [wlp_ite]
    refine ⟨fun _ => ?_, fun _ => ?_⟩
    · refine wlp_mono (Kept.wlp_freePagesInTransaction (t := { t with
        calls := .lock true id :: .fetchPage id :: t.calls }) hlatched previous) ?_
      rintro _ s ⟨hs, hset, hnext⟩
      rw [wlp_addIntoPageSet rfl]
      exact hjoin s (hset ▸ hs) hnext
    · rw [wlp_pure, wlp_addIntoPageSet rfl]
      exact hjoin _ hlatched rfl
  rw [wlp_ite]
  refine ⟨fun _ => ?_, fun _ => ?_⟩
  · exact wlp_ofExcept.mpr fun release _ => hrest release
  · exact wlp_pure.mpr (hrest false)

theorem Kept.wlp_findLeafFrom (params : IndexParams K) {key : K} {leftMost : Bool} {op : OpType}
    (hop : op ≠ .read) {fuel : Nat} {cur : PageId} (h : Kept u₀ t₀ extra mine t.pageSet t)
    (hcur : cur ∈ t.pageSet) :
    wlp (findLeafFrom params key leftMost op true fuel cur) (fun id s =>
      Kept u₀ t₀ extra mine s.pageSet s ∧ id ∈ s.pageSet) t := by
  induction fuel generalizing t cur with
  | zero => exact wlp_throw.mpr trivial
  | succ fuel ih =>
      rw [findLeafFrom, wlp_bind, wlp_readPage]
      intro page _
      cases page with
      | leaf leaf => exact wlp_pure.mpr ⟨h, hcur⟩
      | internal q =>
          simp only [wlp_bind, wlp_ofExcept]
          intro next _
          refine wlp_mono (h.wlp_crabingProtocalFetchPage hop next cur) ?_
          exact fun _ s hs => ih hs.1 hs.2

theorem Kept.wlp_findLeafPage (params : IndexParams K) {key : K} {leftMost : Bool} {op : OpType}
    (hop : op ≠ .read) (h : Kept u₀ t₀ extra mine t.pageSet t) :
    wlp (findLeafPage params key leftMost op true) (fun r s =>
      Kept u₀ t₀ extra mine s.pageSet s ∧ ∀ id, r = some id → id ∈ s.pageSet) t := by
  simp only [findLeafPage, lockRootPageId, tryUnlockRootPageId, wlp_bind, wlp_modify,
    wlp_getRootPageId, wlp_get, wlp_ite, wlp_pure]
  have hlocked := (h.latch (.lockRoot (decide (op ≠ .read))) fun _ => rfl).congr (s := { t with
    rootLockedCnt := t.rootLockedCnt + 1,
    calls := .lockRoot (decide (op ≠ .read)) :: t.calls }) rfl rfl rfl rfl
  refine ⟨fun _ => ?_, fun _ => ?_⟩
  · rw [if_pos (Nat.succ_pos _)]
    refine ⟨?_, fun id hid => by cases hid⟩
    exact (hlocked.latch (.unlockRoot (decide (op ≠ .read))) fun _ => rfl).congr
      rfl rfl rfl rfl
  · refine wlp_mono (Kept.wlp_crabingProtocalFetchPage (t := { t with
      rootLockedCnt := t.rootLockedCnt + 1,
      calls := .lockRoot (decide (op ≠ .read)) :: t.calls }) hlocked hop _ _) ?_
    rintro _ s ⟨hs, hroot⟩
    refine wlp_mono (hs.wlp_findLeafFrom params hop hroot) ?_
    rintro id s' ⟨hs', hid⟩
    refine ⟨hs', ?_⟩
    rintro _ ⟨⟩
    exact hid

/-! ### Whole operations -/

section Operations

variable (params : IndexParams K)

/-- What is left to do after a change of the tree. -/
theorem Kept.wlp_release {α : Type} {a : α} (h : Kept u₀ t₀ extra [] t.pageSet t) :
    wlp (do freePagesInTransaction true true (-1); pure a) (fun _ s =>
      Kept u₀ t₀ extra [] s.pageSet s ∧ s.pageSet = []) t := by
  rw [wlp_bind]
  refine wlp_mono (h.wlp_freePagesInTransaction (-1)) ?_
  rintro _ s ⟨hs, hset, -⟩
  exact wlp_pure.mpr ⟨hset ▸ hs, hset⟩

theorem Kept.wlp_startNewTree (key : K) (value : V) (h : Kept u₀ t₀ extra [] t.pageSet t) :
    wlp (startNewTree params key value) (fun _ s =>
      Kept u₀ t₀ extra [] s.pageSet s ∧ s.pageSet = t.pageSet) t := by
  have hnew : 0 < t.nextPageId ∧ t.nextPageId < t.nextPageId + 1 := ⟨h.next, Int.lt_succ _⟩
  have hroot := (h.newPage.store (Or.inr List.mem_cons_self) hnew
    (show (TreePage.leaf (LeafPage.init params.keySize t.nextPageId invalidPageId) :
      TreePage K V).getPageId = t.nextPageId from rfl))
  simp only [startNewTree, updateRootPageId, wlp_bind, wlp_newPage, wlp_writePage,
    wlp_setRootPageId, wlp_fetchHeaderPage, wlp_getRootPageId, wlp_get, wlp_ofExcept, wlp_modify,
    wlp_unpinPage, wlp_leafAt]
  intro result _ leaf hleaf leaf' hinsert
  obtain ⟨l, rfl, -⟩ := LeafPage.insert_ok hinsert
  -- the header page is pinned, changed and unpinned between the two stores to the root
  have hheader := (hroot.fetch_header.own.store_pinned (s := { t with
      rootPageId := t.nextPageId, nextPageId := t.nextPageId + 1, headerPage := result.2,
      pages := Function.update t.pages t.nextPageId
        (some (.leaf (LeafPage.init params.keySize t.nextPageId invalidPageId))),
      calls := .store headerPageId :: .fetchPage headerPageId :: .store t.nextPageId ::
        .newPage t.nextPageId :: t.calls }) (Or.inr List.mem_cons_self)
    ⟨hroot.named, hroot.allocated, hroot.next⟩ rfl rfl (fun _ _ => rfl) (Or.inr rfl)).unpin_dirty
      hroot.pinned
  have hfilled := hheader.update (Or.inr List.mem_cons_self) hleaf
    (.leaf { leaf with array := l }) rfl
  exact ⟨hfilled.unpin_dirty h.pinned, trivial⟩

theorem Kept.wlp_insertIntoLeaf [Inhabited K] (key : K) (value : V)
    (h : Kept u₀ t₀ extra [] t.pageSet t) :
    wlp (insertIntoLeaf params key value true) (fun _ s =>
      Kept u₀ t₀ extra [] s.pageSet s ∧ s.pageSet = []) t := by
  rw [insertIntoLeaf, wlp_bind]
  refine wlp_mono (h.wlp_findLeafPage params (by decide)) ?_
  rintro found t₁ ⟨h₁, hfound⟩
  cases found with
  | none => exact wlp_throw.mpr trivial
  | some id =>
      have hid : [id] ⊆ t₁.pageSet := by simpa using hfound id rfl
      rw [wlp_bind, wlp_leafAt]
      intro leaf hleaf
      cases leaf.lookup params.comparator key with
      | some v => exact h₁.wlp_release
      | none =>
          rw [wlp_bind, wlp_ofExcept]
          intro leaf' hinsert
          obtain ⟨l, rfl, -⟩ := LeafPage.insert_ok hinsert
          have hstored := h₁.update (Or.inl (hfound id rfl)) hleaf
            (.leaf { leaf with array := l }) rfl
          have hsplit : Settles [] [id] (if l.length > leaf.maxSize then do
                let newId ← split params true id
                let newLeaf ← leafAt newId
                let newKey ← MonadExcept.ofExcept (newLeaf.keyAt 0)
                let t ← get
                insertIntoParent params true t.nextPageId.toNat id newKey newId
              else Pure.pure () : TreeM K V Unit) := by
            refine Settles.ite ?_ (Settles.pure ())
            intro u₀ t₀ extra s hs hbase
            rw [wlp_bind]
            refine wlp_mono (settles_split params (Or.inl List.mem_cons_self) u₀ t₀ extra s hs
              hbase) fun newId s' hs' => ?_
            have hrest : Settles [] [newId, id] (do
                let newLeaf ← leafAt newId
                let newKey ← MonadExcept.ofExcept (newLeaf.keyAt 0)
                let t ← get
                insertIntoParent params true t.nextPageId.toNat id newKey newId :
                  TreeM K V Unit) := by
              refine settles_leafAt.bind fun newLeaf => (Settles.ofExcept _).bind fun newKey => ?_
              refine Settles.get.bind fun s => ?_
              exact settles_insertIntoParent params _ newKey (Or.inl (by simp)) (Or.inl (by simp))
            refine wlp_mono (hrest u₀ t₀ extra s' hs'.1 hs'.2) fun _ s'' hs'' => ⟨hs''.1, ?_⟩
            exact fun y hy => hs''.2 (List.mem_cons_of_mem _ hy)
          rw [wlp_bind, wlp_writePage, wlp_bind]
          refine wlp_mono (hsplit u₀ t₀ extra { t₁ with
            pages := Function.update t₁.pages id (some (.leaf { leaf with array := l })),
            calls := .store id :: t₁.calls } hstored hid) fun _ t₂ h₂ => ?_
          exact h₂.1.wlp_release

theorem Kept.wlp_insert [Inhabited K] (key : K) (value : V)
    (h : Kept u₀ t₀ extra [] t.pageSet t) (hset : t.pageSet = []) :
    wlp (insert params key value true) (fun _ s =>
      Kept u₀ t₀ extra [] s.pageSet s ∧ s.pageSet = []) t := by
  have hlocked := (h.latch (.lockRoot true) fun _ => rfl).congr (s := { t with
    rootLockedCnt := t.rootLockedCnt + 1, calls := .lockRoot true :: t.calls }) rfl rfl rfl rfl
  have hunlock : ∀ s : BPlusTree K V, Kept u₀ t₀ extra [] s.pageSet s → s.pageSet = [] →
      wlp (tryUnlockRootPageId true : TreeM K V Unit) (fun _ s' =>
        Kept u₀ t₀ extra [] s'.pageSet s' ∧ s'.pageSet = []) s := by
    intro s hs hsset
    rw [tryUnlockRootPageId, wlp_modify]
    split
    · exact ⟨(hs.latch (.unlockRoot true) fun _ => rfl).congr rfl rfl rfl rfl, hsset⟩
    · exact ⟨hs, hsset⟩
  simp only [insert, lockRootPageId, wlp_bind, wlp_modify, wlp_getRootPageId, wlp_ite, wlp_pure]
  refine ⟨fun _ => ?_, fun _ => ?_⟩
  · refine wlp_mono (Kept.wlp_startNewTree (t := { t with
      rootLockedCnt := t.rootLockedCnt + 1, calls := .lockRoot true :: t.calls }) params key value
      hlocked) ?_
    rintro _ s ⟨hs, hsset⟩
    exact hunlock s hs (hsset.trans hset)
  · refine wlp_mono (hunlock { t with
      rootLockedCnt := t.rootLockedCnt + 1, calls := .lockRoot true :: t.calls } hlocked hset) ?_
    rintro _ s ⟨hs, -⟩
    exact hs.wlp_insertIntoLeaf params key value

theorem Kept.wlp_remove (key : K) (h : Kept u₀ t₀ extra [] t.pageSet t)
    (hset : t.pageSet = []) :
    wlp (remove params key true) (fun _ s =>
      Kept u₀ t₀ extra [] s.pageSet s ∧ s.pageSet = []) t := by
  simp only [remove, wlp_bind, wlp_getRootPageId, wlp_ite, wlp_pure]
  refine ⟨fun _ => ⟨h, hset⟩, fun _ => ?_⟩
  refine wlp_mono (h.wlp_findLeafPage params (by decide)) ?_
  rintro found t₁ ⟨h₁, hfound⟩
  cases found with
  | none => exact wlp_throw.mpr trivial
  | some id =>
      have hid : [id] ⊆ t₁.pageSet := by simpa using hfound id rfl
      rw [wlp_bind, wlp_leafAt]
      intro leaf hleaf
      obtain ⟨l, hremove, -⟩ := LeafPage.removeAndDeleteRecord_outcome params.comparator leaf key
      have hstored := h₁.update (Or.inl (hfound id rfl)) hleaf
        (.leaf { leaf with array := l }) rfl
      have hshrink : Settles [] [id]
          (if l.length < (TreePage.leaf { leaf with array := l } : TreePage K V).getMinSize then do
            let t ← get
            let _ ← coalesceOrRedistribute params true t.nextPageId.toNat id
            Pure.pure ()
          else Pure.pure () : TreeM K V Unit) := by
        refine Settles.ite (Settles.get.bind fun s => Settles.bind ?_ fun _ => Settles.pure ())
          (Settles.pure ())
        exact settles_coalesceOrRedistribute params _ (Or.inl List.mem_cons_self)
      rw [hremove, wlp_bind, wlp_writePage, wlp_bind]
      refine wlp_mono (hshrink u₀ t₀ extra { t₁ with
        pages := Function.update t₁.pages id (some (.leaf { leaf with array := l })),
        calls := .store id :: t₁.calls } hstored hid) fun _ t₂ h₂ => ?_
      refine wlp_mono (h₂.1.wlp_freePagesInTransaction (-1)) ?_
      rintro _ s ⟨hs, hset', -⟩
      exact ⟨hset' ▸ hs, hset'⟩

end Operations

end BPlusTree

end ScuDb
