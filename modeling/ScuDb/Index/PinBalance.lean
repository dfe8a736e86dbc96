import ScuDb.Index.PoolUse
import ScuDb.Index.Shape
import ScuDb.Index.Execution
import ScuDb.Page.BPlusTreePageOutcome

/-!
Between the descent and the release, a writer gives back every pin it
takes, except the one that goes with each page of its page set.

Nothing is assumed about the shape of the tree: each function is looked
at by itself, in a run that ends. What it needs is that the pages know
their own ids, since some pages are unpinned under the id they store.
That no page is latched twice is a matter of the shape, and is taken here
from the page set.
-/

namespace ScuDb

open Foundations

variable {K V : Type}

namespace BPlusTree

/-- Every page stores the id it is kept under. -/
def Named (pages : PageId → Option (TreePage K V)) : Prop :=
  ∀ id page, pages id = some page → page.getPageId = id

theorem Named.update {pages : PageId → Option (TreePage K V)} (h : Named pages) {id : PageId}
    {page : TreePage K V} (hid : page.getPageId = id) :
    Named (Function.update pages id (some page)) := by
  intro y page' hpage'
  by_cases hy : y = id
  · subst hy
    rw [Function.update_self, Option.some_inj] at hpage'
    rw [← hpage', hid]
  · rw [Function.update_of_ne hy] at hpage'
    exact h y page' hpage'

/-- A writer has in hand the pages of its page set, and the pins `extra`. -/
structure Balanced (u₀ : PoolUse) (old : List PoolCall) (extra : PageId → Nat)
    (t : BPlusTree K V) : Prop where
  named : Named t.pages
  inHand : t.pageSet.Nodup → InHand u₀ old true extra t.pageSet t.rootLockedCnt t.calls

/-- The program gives back what it takes, apart from the page set. -/
def Neutral {α : Type} (m : TreeM K V α) : Prop :=
  ∀ u₀ old extra t, Balanced u₀ old extra t → wlp m (fun _ => Balanced u₀ old extra) t

/-- Whatever a writer had in hand in the state `t`, it has exchanged for
the page set of `s`. -/
def Carries (t s : BPlusTree K V) : Prop :=
  ∀ u₀ old extra, Named t.pages → InHand u₀ old true extra t.pageSet t.rootLockedCnt t.calls →
    Named s.pages ∧ InHand u₀ old true extra s.pageSet s.rootLockedCnt s.calls

theorem Carries.trans {t s s' : BPlusTree K V} (h : Carries t s) (h' : Carries s s') :
    Carries t s' := by
  intro u₀ old extra hn ht
  obtain ⟨hn', hs⟩ := h u₀ old extra hn ht
  exact h' u₀ old extra hn' hs

theorem Carries.store {t : BPlusTree K V} {id : PageId} {page : TreePage K V}
    (hid : page.getPageId = id) : Carries t { t with
      pages := Function.update t.pages id (some page), calls := .store id :: t.calls } :=
  fun _ _ _ hn ht => ⟨hn.update hid, ht.store⟩

theorem Neutral.carries {α : Type} {m : TreeM K V α} (hm : Neutral m) (t : BPlusTree K V) :
    wlp m (fun _ s => s.pageSet.Nodup → Carries t s) t := by
  intro a s hrun hnodup u₀ old extra hn ht
  have hs := hm u₀ old extra t ⟨hn, fun _ => ht⟩ a s hrun
  exact ⟨hs.named, hs.inHand hnodup⟩

section Steps

variable {α β : Type} {u₀ : PoolUse} {old : List PoolCall} {extra : PageId → Nat}
  {t : BPlusTree K V} {id : PageId}

/-! ### Programs that are put together -/

theorem Neutral.pure (a : α) : Neutral (pure a : TreeM K V α) :=
  fun _ _ _ _ h => wlp_pure.mpr h

theorem Neutral.bind {m : TreeM K V α} {f : α → TreeM K V β} (hm : Neutral m)
    (hf : ∀ a, Neutral (f a)) : Neutral (m >>= f) := by
  intro u₀ old extra t h
  rw [wlp_bind]
  exact wlp_mono (hm u₀ old extra t h) fun a t' h' => hf a u₀ old extra t' h'

theorem Neutral.ite {c : Prop} [Decidable c] {m n : TreeM K V α} (hm : Neutral m)
    (hn : Neutral n) : Neutral (if c then m else n) := by
  intro u₀ old extra t h
  rw [wlp_ite]
  exact ⟨fun _ => hm u₀ old extra t h, fun _ => hn u₀ old extra t h⟩

theorem Neutral.get : Neutral (get : TreeM K V (BPlusTree K V)) :=
  fun _ _ _ _ h => wlp_get.mpr h

theorem Neutral.ofExcept (x : Except Fault α) :
    Neutral (MonadExcept.ofExcept x : TreeM K V α) :=
  fun _ _ _ _ h => wlp_ofExcept.mpr fun _ _ => h

theorem neutral_readPage : Neutral (readPage id : TreeM K V (TreePage K V)) :=
  fun _ _ _ _ h => wlp_readPage.mpr fun _ _ => h

theorem neutral_leafAt : Neutral (leafAt id : TreeM K V (LeafPage K V)) :=
  fun _ _ _ _ h => wlp_leafAt.mpr fun _ _ => h

theorem neutral_internalAt : Neutral (internalAt id : TreeM K V (InternalPage K)) :=
  fun _ _ _ _ h => wlp_internalAt.mpr fun _ _ => h

/-- A program between the fetch and the unpin of a page. -/
theorem Neutral.pinned {m : TreeM K V Unit} (hm : Neutral m) {isDirty : Bool} :
    Neutral (do fetchPage id; m; unpinPage id isDirty) := by
  intro u₀ old extra t h
  simp only [wlp_bind, wlp_fetchPage, wlp_unpinPage]
  intro page _
  refine wlp_mono (hm u₀ old (addPin extra id) _ ?_) ?_
  · exact ⟨h.named, fun hn => (h.inHand hn).fetch id⟩
  · exact fun _ t' h' => ⟨h'.named, fun hn => (h'.inHand hn).unpin⟩

/-! ### Children that change hands -/

theorem neutral_setParentPageId {parent : PageId} :
    Neutral (setParentPageId id parent : TreeM K V Unit) := by
  intro u₀ old extra t h
  rw [wlp_setParentPageId]
  intro page hpage
  refine ⟨h.named.update ?_, fun hn => (h.inHand hn).store⟩
  rw [getPageId_setParentPageId, h.named id page hpage]

theorem neutral_adoptChild {parent : PageId} :
    Neutral (adoptChild parent id : TreeM K V Unit) :=
  neutral_setParentPageId.pinned

theorem neutral_adoptChildren {parent : PageId} {entries : List (K × PageId)} :
    Neutral (adoptChildren parent entries : TreeM K V Unit) := by
  intro u₀ old extra t h
  exact wlp_forM (fun e _ s hs => neutral_adoptChild u₀ old extra s hs) h

theorem neutral_addIntoDeletedPageSet :
    Neutral (addIntoDeletedPageSet true id : TreeM K V Unit) :=
  fun _ _ _ _ h => (wlp_addIntoDeletedPageSet rfl).mpr ⟨h.named, h.inHand⟩

/-! ### The header record -/

theorem neutral_updateRootPageId (params : IndexParams K) (insertRecord : Bool) :
    Neutral (updateRootPageId params insertRecord : TreeM K V Unit) := by
  intro u₀ old extra t h
  simp only [updateRootPageId, wlp_bind, wlp_fetchHeaderPage, wlp_getRootPageId, wlp_get,
    wlp_ofExcept, wlp_modify, wlp_unpinPage]
  intro result _
  exact ⟨h.named, fun hn => ((h.inHand hn).fetch headerPageId).store.unpin⟩

end Steps

/-! ### Insertion -/

section Insertion

variable (params : IndexParams K)

theorem neutral_split (node : PageId) : Neutral (split params true node : TreeM K V PageId) := by
  intro u₀ old extra t h
  -- the new page is latched, and belongs to the page set from here on
  have hlatched : ∀ calls, InHand u₀ old true (addPin extra t.nextPageId) t.pageSet
      t.rootLockedCnt calls → (t.pageSet ++ [t.nextPageId]).Nodup →
      InHand u₀ old true extra (t.pageSet ++ [t.nextPageId]) t.rootLockedCnt
        (.lock true t.nextPageId :: calls) := by
    intro calls hcalls hn
    apply hcalls.lock
    intro hmem
    exact (List.nodup_append.mp hn).2.2 _ hmem _ (List.mem_singleton_self _) rfl
  have hhand : (t.pageSet ++ [t.nextPageId]).Nodup → InHand u₀ old true extra
      (t.pageSet ++ [t.nextPageId]) t.rootLockedCnt
      (.lock true t.nextPageId :: .newPage t.nextPageId :: t.calls) := by
    intro hn
    exact hlatched _ ((h.inHand (List.nodup_append.mp hn).1).new t.nextPageId) hn
  simp only [split, wlp_bind, wlp_newPage, wlp_record, wlp_addIntoPageSet, wlp_readPage]
  intro page hpage
  cases page with
  | leaf leaf =>
      simp only [wlp_bind, wlp_ofExcept, wlp_writePage, wlp_pure]
      rintro ⟨page', newPage⟩ hmove
      obtain ⟨l, l', rfl, rfl⟩ := LeafPage.moveHalfTo_ok hmove
      refine ⟨(h.named.update ?_).update ?_, fun hn => (hhand hn).store.store⟩
      · rfl
      · exact h.named node (.leaf leaf) hpage
  | internal q =>
      simp only [wlp_bind, wlp_ofExcept, wlp_writePage]
      rintro ⟨page', newPage⟩ hmove
      obtain ⟨l, l', rfl, rfl, -⟩ := InternalPage.moveHalfTo_ok hmove
      refine wlp_mono (neutral_adoptChildren u₀ old extra _ ?_) fun _ t' h' => wlp_pure.mpr h'
      refine ⟨(h.named.update ?_).update ?_, fun hn => (hhand hn).store.store⟩
      · rfl
      · exact h.named node (.internal q) hpage

theorem neutral_startNewTree (key : K) (value : V) :
    Neutral (startNewTree params key value : TreeM K V Unit) := by
  intro u₀ old extra t h
  simp only [startNewTree, wlp_bind, wlp_newPage, wlp_writePage, wlp_setRootPageId]
  have h₁ : Balanced u₀ old (addPin extra t.nextPageId) { t with
      rootPageId := t.nextPageId, nextPageId := t.nextPageId + 1,
      pages := Function.update t.pages t.nextPageId
        (some (.leaf (LeafPage.init params.keySize t.nextPageId invalidPageId))),
      calls := .store t.nextPageId :: .newPage t.nextPageId :: t.calls } :=
    ⟨h.named.update rfl, fun hn => ((h.inHand hn).new t.nextPageId).store⟩
  refine wlp_mono (neutral_updateRootPageId params true u₀ old _ _ h₁) fun _ t₂ h₂ => ?_
  simp only [wlp_leafAt, wlp_ofExcept, wlp_unpinPage]
  intro leaf hleaf leaf' hinsert
  obtain ⟨l, rfl, -⟩ := LeafPage.insert_ok hinsert
  exact ⟨h₂.named.update (h₂.named _ (.leaf leaf) hleaf), fun hn => (h₂.inHand hn).store.unpin⟩

theorem neutral_growRoot [Inhabited K] (oldNode : PageId) (key : K) (newNode : PageId) :
    Neutral (growRoot params oldNode key newNode : TreeM K V Unit) := by
  intro u₀ old extra t h
  simp only [growRoot, wlp_bind, wlp_newPage, wlp_setRootPageId, wlp_ofExcept, wlp_writePage]
  intro newRoot hroot
  have hid : (TreePage.internal newRoot : TreePage K V).getPageId = t.nextPageId := by
    rw [InternalPage.populateNewRoot_ok hroot]
    rfl
  have h₁ : Balanced u₀ old (addPin extra t.nextPageId) { t with
      rootPageId := t.nextPageId, nextPageId := t.nextPageId + 1,
      pages := Function.update t.pages t.nextPageId (some (.internal newRoot)),
      calls := .store t.nextPageId :: .newPage t.nextPageId :: t.calls } :=
    ⟨h.named.update hid, fun hn => ((h.inHand hn).new t.nextPageId).store⟩
  refine wlp_mono (neutral_setParentPageId u₀ old _ _ h₁) fun _ t₂ h₂ => ?_
  refine wlp_mono (neutral_setParentPageId u₀ old _ t₂ h₂) fun _ t₃ h₃ => ?_
  refine wlp_mono (neutral_updateRootPageId params false u₀ old _ t₃ h₃) fun _ t₄ h₄ => ?_
  rw [wlp_unpinPage]
  exact ⟨h₄.named, fun hn => (h₄.inHand hn).unpin⟩

theorem neutral_insertIntoParent [Inhabited K] (fuel : Nat) (oldNode : PageId) (key : K)
    (newNode : PageId) :
    Neutral (insertIntoParent params true fuel oldNode key newNode : TreeM K V Unit) := by
  induction fuel generalizing oldNode key newNode with
  | zero => exact fun _ _ _ _ _ => wlp_throw.mpr trivial
  | succ fuel ih =>
      refine neutral_readPage.bind fun oldPage => ?_
      refine (neutral_growRoot params oldNode key newNode).ite ?_
      intro u₀ old extra t h
      simp only [wlp_bind, wlp_fetchPage]
      intro _ _
      have h₁ : Balanced u₀ old (addPin extra oldPage.getParentPageId)
          { t with calls := .fetchPage oldPage.getParentPageId :: t.calls } :=
        ⟨h.named, fun hn => (h.inHand hn).fetch _⟩
      refine wlp_mono (neutral_setParentPageId u₀ old _ _ h₁) fun _ t₂ h₂ => ?_
      simp only [wlp_internalAt, wlp_ofExcept, wlp_writePage]
      intro parent hparent parent' hinsert
      obtain ⟨l, rfl, -⟩ := InternalPage.insertNodeAfter_ok hinsert
      have hid := h₂.named _ (.internal parent) hparent
      -- the parent stays pinned while the split goes on above it
      have hup : Neutral (if l.length > parent.maxSize then do
            let newId ← split params true oldPage.getParentPageId
            let newParent ← internalAt newId
            let newKey ← MonadExcept.ofExcept (newParent.keyAt 0)
            insertIntoParent params true fuel oldPage.getParentPageId newKey newId
          else Pure.pure () : TreeM K V Unit) := by
        refine Neutral.ite ((neutral_split params _).bind fun newId => ?_) (Neutral.pure ())
        refine neutral_internalAt.bind fun newParent => (Neutral.ofExcept _).bind fun newKey => ?_
        exact ih _ _ _
      have hrun := hup u₀ old _ _ (⟨h₂.named.update hid, fun hn => (h₂.inHand hn).store⟩ :
        Balanced u₀ old (addPin extra oldPage.getParentPageId) { t₂ with
          pages := Function.update t₂.pages oldPage.getParentPageId
            (some (.internal { parent with array := l })),
          calls := .store oldPage.getParentPageId :: t₂.calls })
      refine wlp_mono (by simpa only [wlp_bind, wlp_ite] using hrun) fun _ t₃ h₃ => ?_
      rw [wlp_unpinPage]
      exact ⟨h₃.named, fun hn => (h₃.inHand hn).unpin⟩

end Insertion

/-! ### Removal -/

section Removal

theorem neutral_moveAllTo (node recipient : PageId) (indexInParent : Int) :
    Neutral (moveAllTo node recipient indexInParent : TreeM K V Unit) := by
  intro u₀ old extra t h
  simp only [moveAllTo, wlp_bind, wlp_readPage]
  intro page hpage
  cases page with
  | leaf leaf =>
      simp only [wlp_bind, wlp_leafAt, wlp_ofExcept, wlp_writePage]
      rintro target htarget ⟨page', target'⟩ hmove
      obtain ⟨rfl, rfl⟩ := LeafPage.moveAllTo_ok hmove
      refine ⟨(h.named.update ?_).update ?_, fun hn => (h.inHand hn).store.store⟩
      · exact h.named recipient (.leaf target) htarget
      · exact h.named node (.leaf leaf) hpage
  | internal q =>
      simp only [wlp_bind, wlp_internalAt, wlp_asserting, wlp_fetchPage, wlp_ofExcept,
        wlp_unpinPage, wlp_writePage]
      rintro target htarget _ _ parent hparent separator _ ⟨page', target'⟩ hmove
      obtain ⟨rfl, l, rfl, -⟩ := InternalPage.moveAllTo_ok hmove
      have hid : parent.pageId = q.parentPageId := h.named _ (.internal parent) hparent
      refine neutral_adoptChildren u₀ old extra _ ⟨(h.named.update ?_).update ?_, fun hn => ?_⟩
      · exact h.named recipient (.internal target) htarget
      · exact h.named node (.internal q) hpage
      · rw [hid]
        exact ((h.inHand hn).fetch _).unpin.store.store

theorem neutral_setParentKeyAt (parentId : PageId) (index : InternalPage K → Int) (key : K) :
    Neutral (setParentKeyAt parentId index key : TreeM K V Unit) := by
  intro u₀ old extra t h
  simp only [setParentKeyAt, wlp_bind, wlp_fetchPage, wlp_internalAt, wlp_ofExcept,
    wlp_writePage, wlp_unpinPage]
  intro _ _ parent hparent parent' hset
  obtain ⟨l, rfl, -⟩ := InternalPage.setKeyAt_ok hset
  refine ⟨h.named.update ?_, fun hn => ((h.inHand hn).fetch _).store.unpin⟩
  exact h.named parentId (.internal parent) hparent

theorem neutral_moveFirstToEndOf (node recipient : PageId) :
    Neutral (moveFirstToEndOf node recipient : TreeM K V Unit) := by
  intro u₀ old extra t h
  simp only [moveFirstToEndOf, wlp_bind, wlp_readPage]
  intro page hpage
  cases page with
  | leaf leaf =>
      simp only [wlp_bind, wlp_leafAt, wlp_ofExcept, wlp_writePage]
      rintro target htarget ⟨page', target'⟩ hmove first _
      obtain ⟨l, l', rfl, rfl⟩ := LeafPage.moveFirstToEndOf_ok hmove
      refine neutral_setParentKeyAt _ _ _ u₀ old extra _
        ⟨(h.named.update ?_).update ?_, fun hn => (h.inHand hn).store.store⟩
      · exact h.named node (.leaf leaf) hpage
      · exact h.named recipient (.leaf target) htarget
  | internal q =>
      simp only [wlp_bind, wlp_internalAt, wlp_ofExcept, wlp_writePage]
      rintro target htarget child _ ⟨page', target'⟩ hmove
      obtain ⟨rfl, e, rfl, -⟩ := InternalPage.moveFirstToEndOf_ok hmove
      refine wlp_mono (neutral_adoptChild u₀ old extra _
        ⟨(h.named.update ?_).update ?_, fun hn => (h.inHand hn).store.store⟩) fun _ t₁ h₁ => ?_
      · exact h.named node (.internal q) hpage
      · exact h.named recipient (.internal target) htarget
      · intro first _
        exact neutral_setParentKeyAt _ _ _ u₀ old extra t₁ h₁

theorem neutral_moveLastToFrontOf (node recipient : PageId) (parentIndex : Int) :
    Neutral (moveLastToFrontOf node recipient parentIndex : TreeM K V Unit) := by
  intro u₀ old extra t h
  simp only [moveLastToFrontOf, wlp_bind, wlp_readPage]
  intro page hpage
  cases page with
  | leaf leaf =>
      simp only [wlp_bind, wlp_leafAt, wlp_ofExcept, wlp_writePage]
      rintro target htarget ⟨page', target'⟩ hmove first _
      obtain ⟨l, l', rfl, rfl⟩ := LeafPage.moveLastToFrontOf_ok hmove
      refine neutral_setParentKeyAt _ _ _ u₀ old extra _
        ⟨(h.named.update ?_).update ?_, fun hn => (h.inHand hn).store.store⟩
      · exact h.named node (.leaf leaf) hpage
      · exact h.named recipient (.leaf target) htarget
  | internal q =>
      simp only [wlp_bind, wlp_internalAt, wlp_ofExcept, wlp_writePage]
      rintro target htarget child _ ⟨page', target'⟩ hmove
      obtain ⟨rfl, e, rfl, -⟩ := InternalPage.moveLastToFrontOf_ok hmove
      refine wlp_mono (neutral_adoptChild u₀ old extra _
        ⟨(h.named.update ?_).update ?_, fun hn => (h.inHand hn).store.store⟩) fun _ t₁ h₁ => ?_
      · exact h.named node (.internal q) hpage
      · exact h.named recipient (.internal target) htarget
      · intro first _
        exact neutral_setParentKeyAt _ _ _ u₀ old extra t₁ h₁

theorem neutral_redistribute (neighbor node : PageId) (index : Int) :
    Neutral (redistribute neighbor node index : TreeM K V Unit) :=
  (neutral_moveFirstToEndOf neighbor node).ite (neutral_moveLastToFrontOf neighbor node index)

theorem neutral_findLeftSibling (node : PageId) :
    Neutral (findLeftSibling true node : TreeM K V (Bool × PageId)) := by
  intro u₀ old extra t h
  have hprev : ¬(-1 : PageId) > 0 := by decide
  simp only [findLeftSibling, crabingProtocalFetchPage, wlp_bind, wlp_readPage, wlp_fetchPage,
    wlp_internalAt, wlp_ofExcept, wlp_record, hprev, if_false, wlp_pure, Bool.false_eq_true,
    if_true, wlp_addIntoPageSet, wlp_unpinPage]
  intro page _ _ _ parent hparent sibling _ _ _ _ _
  have hid : parent.pageId = page.getParentPageId := h.named _ (.internal parent) hparent
  refine ⟨h.named, fun hn => ?_⟩
  rw [hid]
  obtain ⟨hset, -, hapart⟩ := List.nodup_append.mp hn
  have hnot : sibling ∉ t.pageSet := fun hmem =>
    hapart _ hmem _ (List.mem_singleton_self _) rfl
  -- two pages are pinned at a time: the parent, and the sibling that is latched
  have hlocked := (((h.inHand hset).fetch page.getParentPageId).fetch sibling).lock hnot
  exact hlocked.unpin

theorem neutral_adjustRoot (params : IndexParams K) (oldRoot : PageId) :
    Neutral (adjustRoot params oldRoot : TreeM K V Bool) := by
  intro u₀ old extra t h
  simp only [adjustRoot, wlp_bind, wlp_readPage]
  intro page hpage
  cases page with
  | leaf leaf =>
      simp only [wlp_bind, wlp_setRootPageId]
      have h₁ : Balanced u₀ old extra { t with rootPageId := invalidPageId } :=
        ⟨h.named, h.inHand⟩
      refine wlp_mono (neutral_updateRootPageId params false u₀ old extra _ h₁) fun _ t₂ h₂ => ?_
      exact wlp_pure.mpr h₂
  | internal q =>
      rw [wlp_ite]
      refine ⟨fun _ => ?_, fun _ => wlp_pure.mpr h⟩
      simp only [wlp_bind, wlp_ofExcept, wlp_writePage, wlp_setRootPageId]
      rintro ⟨newRootId, page'⟩ hchild
      obtain ⟨rfl, -⟩ := InternalPage.removeAndReturnOnlyChild_ok hchild
      have h₁ : Balanced u₀ old extra { t with
          rootPageId := newRootId,
          pages := Function.update t.pages oldRoot (some (.internal { q with array := [] })),
          calls := .store oldRoot :: t.calls } :=
        ⟨h.named.update (h.named oldRoot (.internal q) hpage), fun hn => (h.inHand hn).store⟩
      refine wlp_mono (neutral_updateRootPageId params false u₀ old extra _ h₁) fun _ t₂ h₂ => ?_
      refine wlp_mono (neutral_adoptChild u₀ old extra t₂ h₂) fun _ t₃ h₃ => ?_
      exact wlp_pure.mpr h₃

theorem neutral_coalesce {continueWith : PageId → TreeM K V Bool}
    (hcontinue : ∀ id, Neutral (continueWith id)) (neighbor node parentId : PageId)
    (index : Int) : Neutral (coalesce true continueWith neighbor node parentId index) := by
  refine (neutral_moveAllTo node neighbor index).bind fun _ => ?_
  refine neutral_addIntoDeletedPageSet.bind fun _ => ?_
  intro u₀ old extra t h
  simp only [wlp_bind, wlp_internalAt, wlp_ofExcept, wlp_writePage]
  intro parent hparent parent' hremove
  obtain ⟨l, rfl, -⟩ := InternalPage.remove_ok hremove
  refine (hcontinue parentId).ite (Neutral.pure false) u₀ old extra _ ⟨h.named.update ?_, ?_⟩
  · exact h.named parentId (.internal parent) hparent
  · exact fun hn => (h.inHand hn).store

end Removal

end BPlusTree

end ScuDb
