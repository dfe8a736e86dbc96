import ScuDb.Index.Confined
import ScuDb.Index.Underflow
import ScuDb.Page.BPlusTreePageOutcome

/-!
Merges that go up the tree.

The sibling of a page is a child of the same parent, so it is below every
page that is released. A page is passed on to the next round when it has
too few entries, and then it was not safe before it lost one.
-/

namespace ScuDb

open Foundations BPlusTree

variable {K V : Type}

namespace Watched

/-- A page below `p` whose entries may be moved. -/
structure Movable (T : Set PageId) (p : PageId) (w : BPlusTree K V × Watch) (y : PageId) :
    Prop where
  free : y ∉ w.2.released
  held : y ∈ w.1.pageSet
  mem : y ∈ T
  parent : ∀ page, w.1.pages y = some page → page.getParentPageId = p
  children : ∀ q, w.1.pages y = some (.internal q) →
    ∀ id ∈ q.array.map Prod.snd, id ∉ w.2.released ∧ id ∈ T

section Moves

variable {T : Set PageId} {p node recipient : PageId} {w : BPlusTree K V × Watch}

theorem Movable.write {w₀ : BPlusTree K V × Watch} (h : Movable T p w₀ node)
    (hw : Within T w₀ w) (page : TreePage K V) :
    Passes (BPlusTree.writePage node page) (BPlusTree.writePage node page)
      (fun _ w' => Within T w₀ w') w :=
  (passes_writePage hw h.free (Or.inl h.held) h.mem page).mono fun _ _ hw' => hw'.1

theorem passes_moveAllTo (hn : Movable T p w node) (hr : Movable T p w recipient)
    (hp : p ∉ w.2.released) (indexInParent : Int) :
    Passes (BPlusTree.moveAllTo node recipient indexInParent)
      (BPlusTree.moveAllTo node recipient indexInParent) (fun _ w' => Within T w w') w := by
  unfold BPlusTree.moveAllTo
  refine (passes_readPage (Within.refl T w) hn.free).bind ?_
  rintro page w ⟨rfl, hpage⟩
  cases page with
  | leaf page =>
      dsimp only
      refine (passes_leafAt (Within.refl T w) hr.free).bind ?_
      rintro target w ⟨rfl, -⟩
      refine (passes_ofExcept _).bind ?_
      rintro ⟨page', target'⟩ w ⟨rfl, -⟩
      refine (hr.write (Within.refl T w) _).bind fun _ w₁ h₁ => ?_
      exact hn.write h₁ _
  | internal page =>
      dsimp only
      have hparent : page.parentPageId = p := hn.parent _ hpage
      rw [hparent]
      refine (passes_internalAt (Within.refl T w) hr.free).bind ?_
      rintro target w ⟨rfl, -⟩
      refine (passes_fetchPage (Within.refl T w) hp).bind fun _ w₁ h₁ => ?_
      refine (passes_internalAt h₁ hp).bind ?_
      rintro parent w₁ ⟨rfl, -⟩
      refine (passes_ofExcept _).bind ?_
      rintro separator w₁ ⟨rfl, -⟩
      refine (passes_unpinPage h₁ _ false).bind fun _ w₂ h₂ => ?_
      refine (passes_ofExcept _).bind ?_
      rintro ⟨page', target'⟩ w₂ ⟨rfl, -⟩
      refine (hr.write h₂ _).bind fun _ w₃ h₃ => ?_
      refine (hn.write h₃ _).bind fun _ w₄ h₄ => ?_
      exact passes_adoptChildren h₄ (hn.children page hpage)

theorem passes_setParentKeyAt {w₀ : BPlusTree K V × Watch} {parentId : PageId}
    (hw : Within T w₀ w) (hparent : parentId = p) (hp : p ∉ w₀.2.released)
    (hheld : p ∈ w₀.1.pageSet) (hT : p ∈ T) (index : InternalPage K → Int) (key : K) :
    Passes (BPlusTree.setParentKeyAt parentId index key)
      (BPlusTree.setParentKeyAt parentId index key)
      (fun _ w' => Within T w₀ w') w := by
  subst hparent
  unfold BPlusTree.setParentKeyAt
  refine (passes_fetchPage hw hp).bind fun _ w₁ h₁ => ?_
  refine (passes_internalAt h₁ hp).bind ?_
  rintro parent w₁ ⟨rfl, -⟩
  refine (passes_ofExcept _).bind ?_
  rintro parent w₁ ⟨rfl, -⟩
  refine (passes_writePage h₁ hp (Or.inl hheld) hT _).bind ?_
  rintro _ w₂ ⟨h₂, -⟩
  exact passes_unpinPage h₂ _ true

theorem passes_moveFirstToEndOf (hn : Movable T p w node) (hr : Movable T p w recipient)
    (hp : p ∉ w.2.released) (hheld : p ∈ w.1.pageSet) (hT : p ∈ T) :
    Passes (BPlusTree.moveFirstToEndOf node recipient) (BPlusTree.moveFirstToEndOf node recipient)
      (fun _ w' => Within T w w') w := by
  unfold BPlusTree.moveFirstToEndOf
  refine (passes_readPage (Within.refl T w) hn.free).bind ?_
  rintro page w ⟨rfl, hpage⟩
  cases page with
  | leaf page =>
      dsimp only
      refine (passes_leafAt (Within.refl T w) hr.free).bind ?_
      rintro target w ⟨rfl, -⟩
      refine (passes_ofExcept _).bind ?_
      rintro ⟨page', target'⟩ w ⟨rfl, hmove⟩
      obtain ⟨l, l', rfl, rfl⟩ := LeafPage.moveFirstToEndOf_ok hmove
      refine (hn.write (Within.refl T w) _).bind fun _ w₁ h₁ => ?_
      refine (hr.write h₁ _).bind fun _ w₂ h₂ => ?_
      refine (passes_ofExcept _).bind ?_
      rintro first w₂ ⟨rfl, -⟩
      exact passes_setParentKeyAt h₂ (hn.parent _ hpage) hp hheld hT _ _
  | internal page =>
      dsimp only
      refine (passes_internalAt (Within.refl T w) hr.free).bind ?_
      rintro target w ⟨rfl, -⟩
      refine (passes_ofExcept _).bind ?_
      rintro child w ⟨rfl, hchild⟩
      refine (passes_ofExcept _).bind ?_
      rintro ⟨page', target'⟩ w ⟨rfl, hmove⟩
      obtain ⟨rfl, e, rfl, -⟩ := InternalPage.moveFirstToEndOf_ok hmove
      -- The child that is moved gets the recipient as its parent.
      have hmoved := hn.children page hpage child (InternalPage.valueAt_ok hchild)
      refine (hn.write (Within.refl T w) _).bind fun _ w₁ h₁ => ?_
      refine (hr.write h₁ _).bind fun _ w₂ h₂ => ?_
      refine (passes_adoptChild h₂ hmoved.1 hmoved.2 _).bind fun _ w₃ h₃ => ?_
      refine (passes_ofExcept _).bind ?_
      rintro first w₃ ⟨rfl, -⟩
      exact passes_setParentKeyAt h₃ (hn.parent _ hpage) hp hheld hT _ _

theorem passes_moveLastToFrontOf (hn : Movable T p w node) (hr : Movable T p w recipient)
    (hp : p ∉ w.2.released) (hheld : p ∈ w.1.pageSet) (hT : p ∈ T) (parentIndex : Int) :
    Passes (BPlusTree.moveLastToFrontOf node recipient parentIndex)
      (BPlusTree.moveLastToFrontOf node recipient parentIndex) (fun _ w' => Within T w w') w := by
  unfold BPlusTree.moveLastToFrontOf
  refine (passes_readPage (Within.refl T w) hn.free).bind ?_
  rintro page w ⟨rfl, hpage⟩
  cases page with
  | leaf page =>
      dsimp only
      refine (passes_leafAt (Within.refl T w) hr.free).bind ?_
      rintro target w ⟨rfl, htarget⟩
      refine (passes_ofExcept _).bind ?_
      rintro ⟨page', target'⟩ w ⟨rfl, hmove⟩
      obtain ⟨l, l', rfl, rfl⟩ := LeafPage.moveLastToFrontOf_ok hmove
      refine (hn.write (Within.refl T w) _).bind fun _ w₁ h₁ => ?_
      refine (hr.write h₁ _).bind fun _ w₂ h₂ => ?_
      refine (passes_ofExcept _).bind ?_
      rintro first w₂ ⟨rfl, -⟩
      exact passes_setParentKeyAt h₂ (hr.parent _ htarget) hp hheld hT _ _
  | internal page =>
      dsimp only
      refine (passes_internalAt (Within.refl T w) hr.free).bind ?_
      rintro target w ⟨rfl, htarget⟩
      refine (passes_ofExcept _).bind ?_
      rintro child w ⟨rfl, hchild⟩
      refine (passes_ofExcept _).bind ?_
      rintro ⟨page', target'⟩ w ⟨rfl, hmove⟩
      obtain ⟨rfl, e, rfl, -⟩ := InternalPage.moveLastToFrontOf_ok hmove
      have hmoved := hn.children page hpage child (InternalPage.valueAt_ok hchild)
      refine (hn.write (Within.refl T w) _).bind fun _ w₁ h₁ => ?_
      refine (hr.write h₁ _).bind fun _ w₂ h₂ => ?_
      refine (passes_adoptChild h₂ hmoved.1 hmoved.2 _).bind fun _ w₃ h₃ => ?_
      refine (passes_ofExcept _).bind ?_
      rintro first w₃ ⟨rfl, -⟩
      exact passes_setParentKeyAt h₃ (hr.parent _ htarget) hp hheld hT _ _

theorem passes_redistribute {neighbor : PageId} (hn : Movable T p w neighbor)
    (hr : Movable T p w node) (hp : p ∉ w.2.released) (hheld : p ∈ w.1.pageSet) (hT : p ∈ T)
    (index : Int) :
    Passes (BPlusTree.redistribute neighbor node index) (BPlusTree.redistribute neighbor node index)
      (fun _ w' => Within T w w') w :=
  .ite (fun _ => passes_moveFirstToEndOf hn hr hp hheld hT)
    fun _ => passes_moveLastToFrontOf hn hr hp hheld hT index

theorem passes_findLeftSibling {q : InternalPage K} (hnode : node ∉ w.2.released)
    (hp : p ∉ w.2.released)
    (hparent : ∀ page, w.1.pages node = some page → page.getParentPageId = p)
    (hq : w.1.pages p = some (.internal q))
    (hfree : ∀ id ∈ q.array.map Prod.snd, id ∉ w.2.released) :
    Passes (BPlusTree.findLeftSibling true node) (BPlusTree.findLeftSibling true node)
      (fun r w' => Within ∅ w w' ∧ r.2 ∈ q.array.map Prod.snd ∧ r.2 ∈ w'.1.pageSet) w := by
  unfold BPlusTree.findLeftSibling
  refine (passes_readPage (Within.refl ∅ w) hnode).bind ?_
  rintro page w ⟨rfl, hpage⟩
  rw [hparent page hpage]
  refine (passes_fetchPage (Within.refl ∅ w) hp).bind fun _ w₁ h₁ => ?_
  refine (passes_internalAt h₁ hp).bind ?_
  rintro parent w₁ ⟨rfl, hparent₁⟩
  rw [h₁.pages p (Set.notMem_empty p), hq] at hparent₁
  cases hparent₁
  dsimp only
  refine (passes_ofExcept _).bind ?_
  rintro sibling w₁ ⟨rfl, hsibling⟩
  have hmem := InternalPage.valueAt_ok hsibling
  have hfree₁ := h₁.free (hfree sibling hmem)
  refine (passes_crabingProtocalFetchPage_first (by decide) hfree₁).bind ?_
  rintro _ _ ⟨calls, rfl⟩
  refine (passes_unpinPage (Within.refl ∅ _) _ false).bind fun _ w₃ h₃ => ?_
  refine .pure ⟨(h₁.trans (Within.of_latch ∅ w₁ hfree₁ calls)).trans h₃, hmem, h₃.set ?_⟩
  exact List.mem_append_right _ (List.mem_singleton_self sibling)

theorem passes_adjustRoot (params : IndexParams K) (hnode : node ∉ w.2.released)
    (hheld : node ∈ w.1.pageSet) (hroot : w.2.rootReleased = false)
    (hfree : ∀ q, w.1.pages node = some (.internal q) →
      ∀ id ∈ q.array.map Prod.snd, id ∉ w.2.released) :
    Passes (BPlusTree.adjustRoot params node) (BPlusTree.adjustRoot params node)
      (fun _ w' => Within Set.univ w w') w := by
  unfold BPlusTree.adjustRoot
  refine (passes_readPage (Within.refl Set.univ w) hnode).bind ?_
  rintro page w ⟨rfl, hpage⟩
  have h := Within.refl Set.univ w
  cases page with
  | leaf page =>
      dsimp only
      refine (passes_setRootPageId h hroot _).bind fun _ w₁ h₁ => ?_
      refine (passes_updateRootPageId h₁ hroot params false).bind fun _ w₂ h₂ => ?_
      exact .pure h₂
  | internal page =>
      refine .ite (fun _ => ?_) fun _ => .pure h
      refine (passes_ofExcept _).bind ?_
      rintro ⟨newRootId, page'⟩ w ⟨rfl, hchild⟩
      have hmem := (InternalPage.removeAndReturnOnlyChild_ok hchild).2
      dsimp only
      refine (passes_writePage h hnode (Or.inl hheld) trivial _).bind ?_
      rintro _ w₁ ⟨h₁, -⟩
      refine (passes_setRootPageId h₁ hroot _).bind fun _ w₂ h₂ => ?_
      refine (passes_updateRootPageId h₂ hroot params false).bind fun _ w₃ h₃ => ?_
      refine (passes_adoptChild h₃ (hfree page hpage newRootId hmem) trivial _).bind
        fun _ w₄ h₄ => ?_
      exact .pure h₄

end Moves

theorem Movable.mono {T T' : Set PageId} {p y : PageId} {w : BPlusTree K V × Watch}
    (h : Movable T p w y) (hT : T ⊆ T') : Movable T' p w y where
  free := h.free
  held := h.held
  mem := hT h.mem
  parent := h.parent
  children q hq id hid := ⟨(h.children q hq id hid).1, hT (h.children q hq id hid).2⟩

section Climb

variable {pages : Pages K V} {root top x p : PageId} {g : Watch} {i j : Nat}
  {w : BPlusTree K V × Watch}

/-- A child of `p` that is in the page set. -/
theorem Steady.movable {op : OpType} (h : Steady pages top g (i + 1) w)
    (hc : Course op pages root top g) (hp : Below pages top i p) {q : InternalPage K}
    (hq : pages p = some (.internal q)) {y : PageId} (hy : y ∈ q.array.map Prod.snd)
    (hheld : y ∈ w.1.pageSet) : Movable (Lower pages top g i) p w y := by
  obtain ⟨e, he, rfl⟩ := List.mem_map.mp hy
  obtain ⟨d, hd⟩ := hc.place
  have hbelow := hp.child hq he
  obtain ⟨old, hold⟩ := hc.rooted.present (hd.trans hbelow)
  refine ⟨h.watch ▸ hc.free hbelow, hheld, Or.inr ⟨i + 1, Nat.lt_succ_self i, hbelow⟩,
    fun page hpage => ?_, fun r hr id hid => ?_⟩
  · rw [(h.level hbelow hpage).parent old hold]
    exact hc.rooted.parent (hd.trans hp) hq he hold
  · have hlow := (h.level hbelow hr).lower r rfl id hid
    exact ⟨h.watch ▸ hc.free_lower hlow, lower_subset (Nat.le_succ i) hlow⟩

theorem passes_coalesce {continueWith' : PageId → WatchedM K V Bool}
    {continueWith : PageId → TreeM K V Bool} {neighbor node : PageId} {q : InternalPage K}
    (hn : Movable (Lower pages top g i) p w node) (hr : Movable (Lower pages top g i) p w neighbor)
    (hp : p ∉ w.2.released) (hheld : p ∈ w.1.pageSet) (hself : p ∉ Lower pages top g i)
    (hq : w.1.pages p = some (.internal q)) (index : Int)
    (hnext : ∀ w' l, Within (Around pages top g i p) w w' →
      w'.1.pages p = some (.internal { q with array := l }) →
      l.length + 1 = q.array.length → l.map Prod.snd ⊆ q.array.map Prod.snd →
      l.length ≤ (TreePage.internal { q with array := l } : TreePage K V).getMinSize →
      Passes (continueWith' p) (continueWith p) (fun _ w'' => Within Set.univ w' w'') w') :
    Passes (BPlusTree.coalesce true continueWith' neighbor node p index)
      (BPlusTree.coalesce true continueWith neighbor node p index)
      (fun _ w' => Within Set.univ w w') w := by
  unfold BPlusTree.coalesce
  refine (passes_moveAllTo hn hr hp index).bind fun _ w₁ h₁ => ?_
  refine (passes_addIntoDeletedPageSet h₁ node).bind fun _ w₂ h₂ => ?_
  refine (passes_internalAt h₂ hp).bind ?_
  rintro parent w₂ ⟨rfl, hparent⟩
  rw [h₂.pages p hself, hq] at hparent
  cases hparent
  refine (passes_ofExcept _).bind ?_
  rintro parent w₂ ⟨rfl, hremove⟩
  obtain ⟨l, rfl, hlen, hsub⟩ := InternalPage.remove_ok hremove
  have hin : p ∈ Around pages top g i p := Or.inl rfl
  refine (passes_writePage (h₂.mono fun y hy => Or.inr hy) hp (Or.inl hheld) hin _).bind ?_
  rintro _ w₃ ⟨h₃, hp₃⟩
  have hall : Within Set.univ w w₃ := Within.mono h₃ (Set.subset_univ _)
  refine .ite (fun hmin => ?_) fun _ => .pure hall
  exact (hnext w₃ l h₃ hp₃ hlen hsub hmin).mono fun _ w₄ h₄ => hall.trans h₄

theorem passes_coalesceOrRedistribute (params : IndexParams K)
    (hc : Course .delete pages root top g) (fuel : Nat) (h : Steady pages top g j w)
    (hheld : PathHeld pages top x w.1.pageSet) (hx : Below pages top j x)
    (hnotsafe : ∀ old, pages x = some old → old.isSafe .delete ≠ .ok true) :
    Passes (BPlusTree.coalesceOrRedistribute params true fuel x)
      (BPlusTree.coalesceOrRedistribute params true fuel x)
      (fun _ w' => Within Set.univ w w') w := by
  induction fuel generalizing j x w with
  | zero => exact passes_throw _
  | succ fuel ih =>
      have hg := h.watch
      have hxfree : x ∉ w.2.released := hg ▸ hc.free hx
      have hxheld : x ∈ w.1.pageSet := hheld j 0 x hx .self
      unfold BPlusTree.coalesceOrRedistribute
      refine (passes_readPage (Within.refl Set.univ w) hxfree).bind ?_
      rintro page w ⟨rfl, hpage⟩
      refine .ite (fun hroot => ?_) fun hroot => ?_
      · have hrel : w.2.rootReleased = false := hg ▸ h.rootReleased_eq hc hx hpage hroot
        refine (passes_adjustRoot params hxfree hxheld hrel fun q hq id hid => ?_).bind
          fun delOldRoot w₁ h₁ => ?_
        · exact hg ▸ hc.free_lower ((h.level hx hq).lower q rfl id hid)
        refine Passes.bind (Q := fun _ w' => Within Set.univ w w') ?_ fun _ w₂ h₂ => .pure h₂
        cases delOldRoot with
        | true => exact passes_addIntoDeletedPageSet h₁ x
        | false => exact .pure h₁
      · obtain ⟨i, q, rfl, hp, hq, hqw, hxq⟩ := h.exists_parent hc hx hpage hroot hnotsafe
        dsimp only
        generalize hparent : page.getParentPageId = p at hp hq hqw
        have hpfree : p ∉ w.2.released := hg ▸ hc.free hp
        have hpath := hheld.parent hq hxq
        have hpheld : p ∈ w.1.pageSet := hpath i 0 p hp .self
        have hself : p ∉ Lower pages top g i := hc.not_lower hp le_rfl
        have hchildren : ∀ id ∈ q.array.map Prod.snd, id ∉ w.2.released := by
          intro id hid
          exact hg ▸ hc.free_lower ((Fits.of_below (g := g) hp hq).lower q rfl id hid)
        refine (passes_findLeftSibling hxfree hpfree (fun page' hpage' => ?_) hqw hchildren).bind ?_
        · cases hpage.symm.trans hpage'
          exact hparent
        rintro ⟨isRightSibling, sibling⟩ w₁ ⟨h₁, hsibling, hsheld⟩
        refine (passes_fetchPage (Within.refl ∅ w₁) (h₁.free hpfree)).bind fun _ w₂ h₁₂ => ?_
        have h₂ := h₁.trans h₁₂
        refine (passes_internalAt h₂ hpfree).bind ?_
        rintro parent w₂ ⟨rfl, -⟩
        dsimp only
        refine (passes_readPage h₂ (hchildren sibling hsibling)).bind ?_
        rintro page2 w₂ ⟨rfl, -⟩
        have hall : Within Set.univ w w₂ := h₂.mono (Set.empty_subset _)
        have hmx := (h.idle h₂).movable hc hp hq hxq (h₂.set hxheld)
        have hms := (h.idle h₂).movable hc hp hq hsibling (h₁₂.set hsheld)
        have hpfree₂ := h₂.free hpfree
        have hpheld₂ := h₂.set hpheld
        have hq₂ : w₂.1.pages p = some (.internal q) := (h₂.pages p (Set.notMem_empty p)).trans hqw
        refine .ite (fun _ => ?_) fun _ => ?_
        · -- The pages are merged, and the parent may run short in turn.
          have hnext : ∀ w' l, Within (Around pages top g i p) w₂ w' →
              w'.1.pages p = some (.internal { q with array := l }) →
              l.length + 1 = q.array.length → l.map Prod.snd ⊆ q.array.map Prod.snd →
              l.length ≤ (TreePage.internal { q with array := l } : TreePage K V).getMinSize →
              Passes (BPlusTree.coalesceOrRedistribute params true fuel p)
                (BPlusTree.coalesceOrRedistribute params true fuel p)
                (fun _ w'' => Within Set.univ w' w'') w' := by
            intro w₃ l h₃ hp₃ hlen hsub hmin
            have hw₃ : Within (Around pages top g i p) w w₃ :=
              (h₂.mono (Set.empty_subset _)).trans h₃
            have hold₃ : Fits pages top g i p (.internal q) := Fits.of_below hp hq
            refine ih (h.up.within hc hp hw₃ fun page' hpage' => ?_) (hpath.subset hw₃.set) hp
              fun old' hold' => ?_
            · cases hp₃.symm.trans hpage'
              exact hold₃.internal rfl fun id hid => hold₃.lower q rfl id (hsub hid)
            · cases hq.symm.trans hold'
              refine not_isSafe_internal ?_
              rw [← hlen]
              exact Nat.succ_le_succ hmin
          refine Passes.bind (Q := fun _ w' => Within Set.univ w w') ?_ fun _ w₃ h₃ =>
            (passes_unpinPage h₃ p true).bind fun _ w₄ h₄ => .pure h₄
          -- The page that is emptied is the right one of the two.
          cases isRightSibling with
          | true =>
              exact (passes_coalesce hms hmx hpfree₂ hpheld₂ hself hq₂ _ hnext).mono
                fun _ w₃ h₃ => hall.trans h₃
          | false =>
              exact (passes_coalesce hmx hms hpfree₂ hpheld₂ hself hq₂ _ hnext).mono
                fun _ w₃ h₃ => hall.trans h₃
        · -- One entry comes over from the sibling, and the climb ends.
          refine (passes_redistribute (hms.mono (Set.subset_univ _)) (hmx.mono (Set.subset_univ _))
            hpfree₂ hpheld₂ trivial _).bind fun _ w₃ h₃ => ?_
          exact (passes_unpinPage (hall.trans h₃) p false).bind fun _ w₄ h₄ => .pure h₄

end Climb

end Watched

end ScuDb
