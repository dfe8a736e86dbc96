import ScuDb.Index.Confined
import ScuDb.Page.BPlusTreePageOutcome

/-!
Splits that go up the tree.

A page is split when it has one entry more than it may keep, so it was
full before and not safe. Its parent is then still held, or it is the root
and the root lock is.
-/

namespace ScuDb

open Foundations BPlusTree

variable {K V : Type}

namespace Watched

section Climb

variable {op : OpType} {pages : Pages K V} {root top x : PageId} {g : Watch} {j : Nat}
  {w : BPlusTree K V × Watch}

theorem passes_split (params : IndexParams K) (hc : Course op pages root top g) (hg : w.2 = g)
    (hnext : g.firstNew ≤ w.1.nextPageId) (hx : Below pages top j x) (hheld : x ∈ w.1.pageSet)
    (hfits : ∀ page, w.1.pages x = some page → Fits pages top g j x page) :
    Passes (BPlusTree.split params true x) (BPlusTree.split params true x) (fun newId w' =>
      Within (Around pages top g j x) w w' ∧ g.firstNew ≤ newId ∧
        ∀ page, w'.1.pages x = some page → Fits pages top g j x page) w := by
  subst hg
  have hxfree : x ∉ w.2.released := hc.free hx
  have hnewfree : w.1.nextPageId ∉ w.2.released := hc.free_lower (j := j) (Or.inl hnext)
  unfold BPlusTree.split
  refine (passes_newPage (Within.refl ∅ w)).bind ?_
  rintro _ w₁ ⟨h₁, rfl⟩
  refine (passes_record h₁ _).bind fun _ w₂ h₂ => ?_
  refine (passes_addIntoPageSet h₂ hnewfree).bind ?_
  rintro _ w₃ ⟨h₃, -⟩
  refine (passes_readPage h₃ hxfree).bind ?_
  rintro page w₃ ⟨rfl, hpage⟩
  rw [h₃.pages x (Set.notMem_empty x)] at hpage
  have hold := hfits _ hpage
  have h₃' : Within (Around pages top w.2 j x) w w₃ := h₃.mono (Set.empty_subset _)
  have hnew : w.1.nextPageId ∈ Around pages top w.2 j x := Or.inr (Or.inl hnext)
  have hself : x ∉ Lower pages top w.2 j := hc.not_lower hx le_rfl
  have hin : x ∈ Around pages top w.2 j x := Or.inl rfl
  have hfit : ∀ {w' : BPlusTree K V × Watch} {page' : TreePage K V}, w'.1.pages x = some page' →
      Fits pages top w.2 j x page' →
      ∀ page, w'.1.pages x = some page → Fits pages top w.2 j x page := by
    intro w' page' hpage' hfits' page'' hpage''
    cases hpage'.symm.trans hpage''
    exact hfits'
  cases page with
  | leaf page =>
      dsimp only
      refine (passes_ofExcept _).bind ?_
      rintro ⟨page', newPage⟩ w₃ ⟨rfl, hmove⟩
      dsimp only
      obtain ⟨l, l', rfl, rfl⟩ := LeafPage.moveHalfTo_ok hmove
      refine (passes_writePage h₃' hnewfree (Or.inr hnext) hnew _).bind ?_
      rintro _ w₄ ⟨h₄, -⟩
      refine (passes_writePage h₄ hxfree (Or.inl hheld) hin _).bind ?_
      rintro _ w₅ ⟨h₅, hx₅⟩
      exact .pure ⟨h₅, hnext, hfit hx₅ (hold.leaf rfl)⟩
  | internal page =>
      dsimp only
      refine (passes_ofExcept _).bind ?_
      rintro ⟨page', newPage⟩ w₃ ⟨rfl, hmove⟩
      dsimp only
      obtain ⟨l, l', rfl, rfl, harray⟩ := InternalPage.moveHalfTo_ok hmove
      have hchildren := hold.lower page rfl
      rw [harray, List.map_append, List.forall_mem_append] at hchildren
      refine (passes_writePage h₃' hnewfree (Or.inr hnext) hnew _).bind ?_
      rintro _ w₄ ⟨h₄, -⟩
      refine (passes_writePage h₄ hxfree (Or.inl hheld) hin _).bind ?_
      rintro _ w₅ ⟨h₅, hx₅⟩
      -- The children that go over to the new page are one level further down.
      have hmoved : ∀ id ∈ l'.map Prod.snd, id ∉ w₅.2.released ∧ id ∈ Lower pages top w.2 j := by
        intro id hid
        rw [h₅.watch]
        exact ⟨hc.free_lower (hchildren.2 id hid), hchildren.2 id hid⟩
      refine (passes_adoptChildren (Within.refl _ w₅) hmoved).bind fun _ w₆ h₆ => ?_
      rw [← h₆.pages x hself] at hx₅
      exact .pure ⟨h₅.trans (h₆.mono fun y hy => Or.inr hy), hnext,
        hfit hx₅ (hold.internal rfl hchildren.1)⟩

theorem passes_growRoot [Inhabited K] (params : IndexParams K)
    (hc : Course op pages root top g) (hg : w.2 = g) (hnext : g.firstNew ≤ w.1.nextPageId)
    (hroot : g.rootReleased = false) {oldNode newNode : PageId} (hold : oldNode ∉ g.released)
    (hnew : newNode ∉ g.released) (key : K) :
    Passes (BPlusTree.growRoot params oldNode key newNode)
      (BPlusTree.growRoot params oldNode key newNode)
      (fun _ w' => Within Set.univ w w') w := by
  subst hg
  have hnewfree : w.1.nextPageId ∉ w.2.released := hc.free_lower (j := 0) (Or.inl hnext)
  unfold BPlusTree.growRoot
  refine (passes_newPage (Within.refl Set.univ w)).bind ?_
  rintro _ w₁ ⟨h₁, rfl⟩
  refine (passes_setRootPageId h₁ hroot _).bind fun _ w₂ h₂ => ?_
  refine (passes_ofExcept _).bind ?_
  rintro newRoot w₂ ⟨rfl, -⟩
  refine (passes_writePage h₂ hnewfree (Or.inr hnext) trivial _).bind ?_
  rintro _ w₃ ⟨h₃, -⟩
  refine (passes_setParentPageId h₃ hold trivial _).bind fun _ w₄ h₄ => ?_
  refine (passes_setParentPageId h₄ hnew trivial _).bind fun _ w₅ h₅ => ?_
  refine (passes_updateRootPageId h₅ hroot params false).bind fun _ w₆ h₆ => ?_
  exact passes_unpinPage h₆ _ true

/-- A page whose split is passed on to its parent was full before. -/
theorem not_isSafe_insert {q : TreePage K V} (hsize : q.getMaxSize < q.getSize + 1) :
    q.isSafe .insert ≠ .ok true := by
  intro hsafe
  simp only [TreePage.isSafe, Except.ok.injEq, decide_eq_true_eq] at hsafe
  omega

theorem passes_insertIntoParent [Inhabited K] (params : IndexParams K)
    (hc : Course .insert pages root top g) (fuel : Nat) {newNode : PageId} (key : K)
    (h : Steady pages top g j w) (hheld : PathHeld pages top x w.1.pageSet)
    (hx : Below pages top j x)
    (hnotsafe : ∀ old, pages x = some old → old.isSafe .insert ≠ .ok true)
    (hnew : newNode ∈ Lower pages top g j) :
    Passes (BPlusTree.insertIntoParent params true fuel x key newNode)
      (BPlusTree.insertIntoParent params true fuel x key newNode)
      (fun _ w' => Within Set.univ w w') w := by
  induction fuel generalizing j x key newNode w with
  | zero => exact passes_throw _
  | succ fuel ih =>
      have hg := h.watch
      have hxfree : x ∉ w.2.released := hg ▸ hc.free hx
      have hnewfree : newNode ∉ w.2.released := hg ▸ hc.free_lower hnew
      unfold BPlusTree.insertIntoParent
      refine (passes_readPage (Within.refl Set.univ w) hxfree).bind ?_
      rintro oldPage w ⟨rfl, hpage⟩
      refine .ite (fun hroot => ?_) fun hroot => ?_
      · -- The climb has come to the root page, whose lock is still held.
        have hrel := h.rootReleased_eq hc hx hpage hroot
        exact passes_growRoot params hc hg h.next hrel (hc.free hx) (hc.free_lower hnew) key
      · obtain ⟨i, q, rfl, hp, hq, hqw, hxq⟩ := h.exists_parent hc hx hpage hroot hnotsafe
        dsimp only
        generalize oldPage.getParentPageId = p at hp hq hqw
        have hpfree : p ∉ w.2.released := hg ▸ hc.free hp
        have hpath := hheld.parent hq hxq
        have hpheld : p ∈ w.1.pageSet := hpath i 0 p hp .self
        refine (passes_fetchPage (Within.refl (Lower pages top g i) w) hpfree).bind
          fun _ w₁ h₁ => ?_
        refine (passes_setParentPageId h₁ hnewfree (lower_subset (Nat.le_succ i) hnew) p).bind
          fun _ w₂ h₂ => ?_
        refine (passes_internalAt h₂ hpfree).bind ?_
        rintro parent w₂ ⟨rfl, hparent₂⟩
        rw [h₂.pages p (hc.not_lower hp le_rfl), hqw] at hparent₂
        cases hparent₂
        refine (passes_ofExcept _).bind ?_
        rintro parent w₂ ⟨rfl, hinsert⟩
        obtain ⟨l, rfl, hlen, hmem⟩ := InternalPage.insertNodeAfter_ok hinsert
        have hin : p ∈ Around pages top g i p := Or.inl rfl
        have h₂' : Within (Around pages top g i p) w w₂ := h₂.mono fun y hy => Or.inr hy
        refine (passes_writePage h₂' hpfree (Or.inl hpheld) hin _).bind ?_
        rintro _ w₃ ⟨h₃, hp₃⟩
        have hold₃ : Fits pages top g i p (.internal q) := Fits.of_below hp hq
        have hfits₃ : Fits pages top g i p (.internal { q with array := l } : TreePage K V) := by
          refine hold₃.internal rfl fun id hid => ?_
          rcases hmem id hid with rfl | hid
          · exact lower_subset (Nat.le_succ i) hnew
          · exact hold₃.lower q rfl id hid
        refine Passes.bind (Q := fun _ w' => Within Set.univ w w')
          (.ite (fun hover => ?_) fun _ => ?_) fun _ w₄ h₄ => passes_unpinPage h₄ p true
        · -- The parent has one entry too many, so it was full and is not safe either.
          refine (passes_split params hc (h₃.watch.trans hg) (h.next.trans h₃.next) hp
            (h₃.set hpheld) fun page hpage => ?_).bind ?_
          · cases hp₃.symm.trans hpage
            exact hfits₃
          rintro newId w₄ ⟨h₄, hnewId, hfits₄⟩
          have hall := h₃.trans h₄
          have hlow : newId ∈ Lower pages top g i := Or.inl hnewId
          refine (passes_internalAt hall (hg ▸ hc.free_lower hlow)).bind ?_
          rintro newParent w₄ ⟨rfl, -⟩
          refine (passes_ofExcept _).bind ?_
          rintro newKey w₄ ⟨rfl, -⟩
          refine (ih newKey (h.up.within hc hp hall hfits₄) (hpath.subset hall.set) hp ?_ hlow).mono
            fun _ w₅ h₅ => (hall.mono (Set.subset_univ _)).trans h₅
          intro old hold
          cases hq.symm.trans hold
          refine not_isSafe_insert ?_
          change q.maxSize < q.array.length + 1
          rw [← hlen]
          exact hover
        · exact .pure (h₃.mono (Set.subset_univ _))

end Climb

end Watched

end ScuDb
