import ScuDb.Index.Balancing

/-!
The programs that move entries between two neighbouring pages.

Each is described by the pages it leaves: those of the two neighbours, of
their parent and of the children that change hands, and all the others
as they were.
-/

namespace ScuDb

open Foundations

variable {K V B : Type} [LinearOrder B] [BoundedOrder B]

namespace BPlusTree

/-- Where two lists of entries are cut when one entry moves. -/
theorem split_after_first {α : Type} (l : List α) {r rest : List α} {e : α} (h : r = e :: rest) :
    (l ++ r).take (l.length + 1) = l ++ [e] ∧ (l ++ r).drop (l.length + 1) = rest := by
  rw [List.take_length_add_append, List.drop_length_add_append, h]
  exact ⟨rfl, rfl⟩

theorem split_before_last {α : Type} {l rest : List α} {e : α} (h : l = rest ++ [e])
    (r : List α) :
    (l ++ r).take (l.length - 1) = rest ∧ (l ++ r).drop (l.length - 1) = e :: r := by
  have hlen : l.length - 1 = rest.length := by simp [h]
  rw [hlen, h, List.append_assoc, List.take_left, List.drop_left]
  exact ⟨rfl, rfl⟩

namespace Pair

variable {ω : OrderedIndex K B} {t : BPlusTree K V} {G : Cells B} {H : Nat} {p : PageId}
  {before : List (K × PageId)} {k : K} {l : PageId} {s : K} {r : PageId}
  {after : List (K × PageId)} {d : Cell B} {q : InternalPage K} {pl pr : TreePage K V}

theorem parent_ne (h : Pair ω t.pages G t.rootPageId H p before k l s r after d q pl pr) :
    p ≠ l ∧ p ≠ r := by
  obtain ⟨cl, hcl, -, hl⟩ := h.left_cell
  obtain ⟨cr, hcr, -, hr⟩ := h.right_cell
  constructor
  · rintro rfl
    cases h.parent.symm.trans hcl
    omega
  · rintro rfl
    cases h.parent.symm.trans hcr
    omega

theorem child_ne (h : Pair ω t.pages G t.rootPageId H p before k l s r after d q pl pr)
    {y : PageId} (hy : y ∈ childIds pl ∨ y ∈ childIds pr) :
    (∃ page, t.pages y = some page) ∧ y ≠ p ∧ y ≠ l ∧ y ≠ r := by
  obtain ⟨cl, hcl, -, hl⟩ := h.left_cell
  obtain ⟨cr, hcr, -, hr⟩ := h.right_cell
  obtain ⟨c, hc, hheight⟩ : ∃ c, G y = some c ∧ c.height + 2 = d.height := by
    rcases hy with hy | hy
    · obtain ⟨c, hc, -, hheight⟩ := h.shape.child_cell hcl h.left hy
      exact ⟨c, hc, by omega⟩
    · obtain ⟨c, hc, -, hheight⟩ := h.shape.child_cell hcr h.right hy
      exact ⟨c, hc, by omega⟩
  obtain ⟨page, hpage, -⟩ := h.shape.page hc
  refine ⟨⟨page, hpage⟩, ?_, ?_, ?_⟩
  · rintro rfl
    cases h.parent.symm.trans hc
    omega
  · rintro rfl
    cases hcl.symm.trans hc
    omega
  · rintro rfl
    cases hcr.symm.trans hc
    omega

theorem right_slot (h : Pair ω t.pages G t.rootPageId H p before k l s r after d q pl pr) :
    q.array = (before ++ [(k, l)]) ++ (s, r) :: after ∧
      r ∉ (before ++ [(k, l)]).map Prod.snd := by
  refine ⟨by rw [h.array]; simp, ?_⟩
  have hnodup := h.ids_nodup
  rw [List.append_cons] at hnodup
  have hcross := (List.nodup_append.mp hnodup).2.2
  intro hmem
  simp only [List.map_append, List.map_cons, List.map_nil] at hmem
  exact hcross r hmem r List.mem_cons_self rfl

theorem valueIndex_right (h : Pair ω t.pages G t.rootPageId H p before k l s r after d q pl pr) :
    q.valueIndex r = before.length + 1 := by
  obtain ⟨harr, hfirst⟩ := h.right_slot
  rw [InternalPage.valueIndex_eq harr hfirst]
  simp

theorem valueIndex_left (h : Pair ω t.pages G t.rootPageId H p before k l s r after d q pl pr) :
    q.valueIndex l = before.length := by
  refine InternalPage.valueIndex_eq h.array ?_
  intro hmem
  exact (List.nodup_append.mp h.ids_nodup).2.2 l hmem l List.mem_cons_self rfl

theorem keyAt_right (h : Pair ω t.pages G t.rootPageId H p before k l s r after d q pl pr) :
    q.keyAt (before.length + 1) = .ok s := by
  have hkey := InternalPage.keyAt_eq h.right_slot.1
  simpa using hkey

theorem setKeyAt_right (h : Pair ω t.pages G t.rootPageId H p before k l s r after d q pl pr)
    (s' : K) : q.setKeyAt (before.length + 1) s' =
      .ok { q with array := before ++ (k, l) :: (s', r) :: after } := by
  have hset := InternalPage.setKeyAt_eq h.right_slot.1 s'
  simpa using hset

theorem remove_right (h : Pair ω t.pages G t.rootPageId H p before k l s r after d q pl pr) :
    q.remove (before.length + 1) = .ok { q with array := before ++ (k, l) :: after } := by
  have hremove := InternalPage.remove_eq h.right_slot.1
  simpa using hremove

theorem wp_setParentKeyAt (h : Pair ω t.pages G t.rootPageId H p before k l s r after d q pl pr)
    {u : BPlusTree K V} (hq : u.pages p = some (.internal q)) {index : InternalPage K → Int}
    (hindex : index q = before.length + 1) {s' : K} {Q : Unit → BPlusTree K V → Prop}
    (hQ : ∀ calls, Q () { u with
      pages := Function.update u.pages p (some (.internal { q with
        array := before ++ (k, l) :: (s', r) :: after })), calls := calls }) :
    wp (setParentKeyAt p index s') Q u := by
  simp only [setParentKeyAt, wp_bind, wp_fetchPage, wp_internalAt, wp_ofExcept, wp_writePage,
    wp_unpinPage]
  refine ⟨_, hq, q, hq, _, ?_, hQ _⟩
  rw [hindex]
  exact h.setKeyAt_right s'

/-! ### Merging -/

theorem wp_moveAllTo (h : Pair ω t.pages G t.rootPageId H p before k l s r after d q pl pr)
    (hfit : pl.getSize + pr.getSize ≤ pl.getMaxSize) {index : Int}
    (hindex : index = before.length + 1) {Q : Unit → BPlusTree K V → Prop}
    (hQ : ∀ pages calls, pages l = some (mergedPage pl pr) →
      (∀ y ∈ childIds pr, pages y = (t.pages y).map (·.setParentPageId l)) →
      (∀ y, y ≠ l → y ≠ r → y ∉ childIds pr → pages y = t.pages y) →
      Q () { t with pages := pages, calls := calls }) :
    wp (moveAllTo r l index) Q t := by
  have hkind := h.sameKind
  have hne := h.left_ne_right
  rw [moveAllTo, wp_bind, wp_readPage]
  refine ⟨pr, h.right, ?_⟩
  cases pl with
  | leaf L =>
      cases pr with
      | internal R => cases hkind
      | leaf R =>
          simp only [TreePage.getSize, TreePage.getMaxSize, TreePage.header] at hfit
          have hmove := LeafPage.moveAllTo_eq L R (by simp; omega)
          simp only [wp_bind, wp_leafAt, wp_ofExcept, wp_writePage]
          refine ⟨L, h.left, _, hmove, ?_⟩
          refine hQ _ _ ?_ ?_ ?_
          · rw [Function.update_of_ne hne.symm, Function.update_self]
            rfl
          · simp [childIds]
          · intro y hyl hyr _
            rw [Function.update_of_ne hyr, Function.update_of_ne hyl]
  | internal L =>
      cases pr with
      | leaf R => cases hkind
      | internal R =>
          simp only [TreePage.getSize, TreePage.getMaxSize, TreePage.header] at hfit
          obtain ⟨-, ⟨c, rest, hhead⟩, -, hlh, hrh, -⟩ :=
            h.internal_family none [] l (by simp) _ rfl
          have hparent : R.parentPageId = p := by rw [hrh]
          have hid : L.pageId = l := by rw [hlh]
          have hmax : R.maxSize = L.maxSize := by rw [hlh, hrh]
          have hmove := InternalPage.moveAllTo_eq L hhead (by simpa using hfit)
            hmax.symm
          simp only [wp_bind, wp_internalAt, wp_asserting, wp_fetchPage, wp_ofExcept, wp_unpinPage,
            wp_writePage, hparent, hindex]
          refine ⟨L, h.left, _, h.page, q, h.page, s, h.keyAt_right, _, hmove, ?_⟩
          rw [hid]
          refine wp_adoptChildren ?_ ?_
          · intro e he
            exact exists_page_update (exists_page_update
              (h.child_ne (Or.inr (List.mem_map_of_mem he))).1)
          · intro calls
            refine hQ _ _ ?_ ?_ ?_
            · have hnot : l ∉ R.array.map Prod.snd := fun hmem =>
                (h.child_ne (Or.inr hmem)).2.2.1 rfl
              simp only [adopted, hnot, if_false]
              rw [Function.update_of_ne hne.symm, Function.update_self]
              rfl
            · intro y hy
              obtain ⟨-, -, hyl, hyr⟩ := h.child_ne (Or.inr hy)
              have hy' : y ∈ R.array.map Prod.snd := hy
              simp only [adopted, hy', if_true]
              rw [Function.update_of_ne hyr, Function.update_of_ne hyl]
            · intro y hyl hyr hy
              have hy' : y ∉ R.array.map Prod.snd := hy
              simp only [adopted, hy', if_false]
              rw [Function.update_of_ne hyr, Function.update_of_ne hyl]

/-! ### Moving one entry -/

/-- What a redistribution leaves: the two pages with the first `n`
entries of both on the left, the new separator in the parent, and the
children `ids` below `target`. -/
structure Shared (h : Pair ω t.pages G t.rootPageId H p before k l s r after d q pl pr) (n : Nat)
    (ids : List PageId) (target : PageId) (pages : Pages K V) : Prop where
  separator : ∃ s', firstKey (rightShare n pl pr) = some s' ∧
    pages p = some (.internal { q with array := before ++ (k, l) :: (s', r) :: after })
  left : pages l = some (leftShare n pl pr)
  right : pages r = some (rightShare n pl pr)
  moved : ∀ y ∈ ids, pages y = (t.pages y).map (·.setParentPageId target)
  same : ∀ y, y ≠ p → y ≠ l → y ≠ r → y ∉ ids → pages y = t.pages y

/-- Two leaves and their parent have been stored. -/
theorem shared_leaves
    (h : Pair ω t.pages G t.rootPageId H p before k l s r after d q pl pr) {n : Nat} {s' : K}
    {target : PageId} (hkey : firstKey (rightShare n pl pr) = some s') {pages : Pages K V}
    (hl : pages l = some (leftShare n pl pr)) (hr : pages r = some (rightShare n pl pr))
    (hsame : ∀ y, y ≠ l → y ≠ r → pages y = t.pages y) :
    h.Shared n [] target (Function.update pages p (some (.internal { q with
      array := before ++ (k, l) :: (s', r) :: after }))) := by
  obtain ⟨hpl, hpr⟩ := h.parent_ne
  refine ⟨⟨s', hkey, Function.update_self _ _ _⟩, ?_, ?_, by simp, ?_⟩
  · rw [Function.update_of_ne hpl.symm, hl]
  · rw [Function.update_of_ne hpr.symm, hr]
  · intro y hyp hyl hyr _
    rw [Function.update_of_ne hyp, hsame y hyl hyr]

/-- Two internal pages, the child that changes hands, and the parent
have been stored. -/
theorem shared_internals
    (h : Pair ω t.pages G t.rootPageId H p before k l s r after d q pl pr) {n : Nat} {s' : K}
    {child target : PageId} {page : TreePage K V}
    (hchild : child ∈ childIds pl ∨ child ∈ childIds pr) (hpage : t.pages child = some page)
    (hkey : firstKey (rightShare n pl pr) = some s') {pages : Pages K V}
    (hl : pages l = some (leftShare n pl pr)) (hr : pages r = some (rightShare n pl pr))
    (hsame : ∀ y, y ≠ l → y ≠ r → pages y = t.pages y) :
    h.Shared n [child] target (Function.update (Function.update pages child
      (some (page.setParentPageId target))) p (some (.internal { q with
      array := before ++ (k, l) :: (s', r) :: after }))) := by
  obtain ⟨hpl, hpr⟩ := h.parent_ne
  obtain ⟨-, hcp, hcl, hcr⟩ := h.child_ne hchild
  refine ⟨⟨s', hkey, Function.update_self _ _ _⟩, ?_, ?_, ?_, ?_⟩
  · rw [Function.update_of_ne hpl.symm, Function.update_of_ne hcl.symm, hl]
  · rw [Function.update_of_ne hpr.symm, Function.update_of_ne hcr.symm, hr]
  · intro y hy
    rw [List.mem_singleton] at hy
    subst hy
    rw [Function.update_of_ne hcp, Function.update_self, hpage]
    rfl
  · intro y hyp hyl hyr hy
    rw [List.mem_singleton] at hy
    rw [Function.update_of_ne hyp, Function.update_of_ne hy, hsame y hyl hyr]

/-- The first entry of the right page goes to the end of the left one. -/
theorem wp_moveFirstToEndOf
    (h : Pair ω t.pages G t.rootPageId H p before k l s r after d q pl pr)
    (hroom : pl.getSize + 1 ≤ pl.getMaxSize) (htwo : 2 ≤ pr.getSize)
    {Q : Unit → BPlusTree K V → Prop}
    (hQ : ∀ pages calls, h.Shared (pl.getSize + 1) ((childIds pr).take 1) l pages →
      Q () { t with pages := pages, calls := calls }) :
    wp (moveFirstToEndOf r l) Q t := by
  have hkind := h.sameKind
  have hne := h.left_ne_right
  obtain ⟨hpl, hpr⟩ := h.parent_ne
  rw [moveFirstToEndOf, wp_bind, wp_readPage]
  refine ⟨pr, h.right, ?_⟩
  cases pl with
  | leaf L =>
      cases pr with
      | internal R => cases hkind
      | leaf R =>
          simp only [TreePage.getSize, TreePage.getMaxSize, TreePage.header] at hroom htwo
          obtain ⟨-, -, -, -, -, hrh⟩ :=
            h.leaf_entries (pairCut p before k l s r after none [] l) rfl
          have hparent : R.parentPageId = p := by rw [hrh]
          have hid : R.pageId = r := by rw [hrh]
          rcases harr : R.array with _ | ⟨e, _ | ⟨f, rest⟩⟩
          · simp [harr] at htwo
          · simp [harr] at htwo
          · have hmove := LeafPage.moveFirstToEndOf_eq L harr (by omega)
            obtain ⟨htake, hdrop⟩ := split_after_first L.array harr
            simp only [wp_bind, wp_leafAt, wp_ofExcept, wp_writePage]
            refine ⟨L, h.left, _, hmove, f, rfl, ?_⟩
            simp only [hparent, hid]
            refine h.wp_setParentKeyAt ?_ h.valueIndex_right fun calls => ?_
            · exact (Function.update_of_ne hpl _ _).trans
                ((Function.update_of_ne hpr _ _).trans h.page)
            · refine hQ _ _ (h.shared_leaves ?_ ?_ ?_ ?_)
              · simp only [firstKey, rightShare, TreePage.getSize, hdrop]
                rfl
              · simp only [Function.update_self, leftShare, TreePage.getSize, htake]
              · simp only [Function.update_of_ne hne, Function.update_self, rightShare,
                  TreePage.getSize, hdrop]
              · intro y hyl hyr
                simp only [Function.update_of_ne hyl, Function.update_of_ne hyr]
  | internal L =>
      cases pr with
      | leaf R => cases hkind
      | internal R =>
          simp only [TreePage.getSize, TreePage.getMaxSize, TreePage.header] at hroom htwo
          obtain ⟨-, -, -, hlh, hrh, -⟩ := h.internal_family none [] l (by simp) _ rfl
          have hparent : R.parentPageId = p := by rw [hrh]
          have hidl : L.pageId = l := by rw [hlh]
          have hid : R.pageId = r := by rw [hrh]
          rcases harr : R.array with _ | ⟨e, _ | ⟨f, rest⟩⟩
          · simp [harr] at htwo
          · simp [harr] at htwo
          · have hslot : R.array = [] ++ (e.1, e.2) :: f :: rest := harr
            have hvalue : R.valueAt 0 = .ok e.2 := InternalPage.valueAt_eq hslot
            have hmove := InternalPage.moveFirstToEndOf_eq L harr hroom
            obtain ⟨htake, hdrop⟩ := split_after_first L.array harr
            have hmem : e.2 ∈ childIds (.internal R : TreePage K V) := by
              simp [childIds, harr]
            have hmoved : (childIds (.internal R : TreePage K V)).take 1 = [e.2] := by
              simp [childIds, harr]
            obtain ⟨⟨child, hchild⟩, hep, hel, her⟩ := h.child_ne (Or.inr hmem)
            have hfirst : (⟨R.toPageHeader, f :: rest⟩ : InternalPage K).keyAt 0 = .ok f.1 :=
              InternalPage.keyAt_zero rfl
            simp only [wp_bind, wp_internalAt, wp_ofExcept, wp_writePage]
            refine ⟨L, h.left, _, hvalue, _, hmove, ?_⟩
            rw [hidl]
            refine wp_adoptChild child ?_ fun calls => ?_
            · exact (Function.update_of_ne hel _ _).trans
                ((Function.update_of_ne her _ _).trans hchild)
            · refine ⟨_, hfirst, ?_⟩
              simp only [hparent, hid]
              refine h.wp_setParentKeyAt ?_ h.valueIndex_right fun calls' => ?_
              · exact (Function.update_of_ne hep.symm _ _).trans
                  ((Function.update_of_ne hpl _ _).trans
                    ((Function.update_of_ne hpr _ _).trans h.page))
              · refine hQ _ _ ?_
                rw [hmoved]
                refine h.shared_internals (Or.inr hmem) hchild ?_ ?_ ?_ ?_
                · simp only [firstKey, rightShare, TreePage.getSize, hdrop]
                  rfl
                · simp only [Function.update_self, leftShare, TreePage.getSize, htake]
                · simp only [Function.update_of_ne hne, Function.update_self, rightShare,
                    TreePage.getSize, hdrop]
                · intro y hyl hyr
                  simp only [Function.update_of_ne hyl, Function.update_of_ne hyr]

/-- The last entry of the left page goes to the front of the right one. -/
theorem wp_moveLastToFrontOf
    (h : Pair ω t.pages G t.rootPageId H p before k l s r after d q pl pr)
    (hroom : pr.getSize + 1 < pr.getMaxSize) (htwo : 2 ≤ pl.getSize) {index : Int}
    (hindex : index = before.length + 1) {Q : Unit → BPlusTree K V → Prop}
    (hQ : ∀ pages calls, h.Shared (pl.getSize - 1) ((childIds pl).drop (pl.getSize - 1)) r pages →
      Q () { t with pages := pages, calls := calls }) :
    wp (moveLastToFrontOf l r index) Q t := by
  have hkind := h.sameKind
  have hne := h.left_ne_right
  obtain ⟨hpl, hpr⟩ := h.parent_ne
  rw [moveLastToFrontOf, wp_bind, wp_readPage]
  refine ⟨pl, h.left, ?_⟩
  cases pl with
  | leaf L =>
      cases pr with
      | internal R => cases hkind
      | leaf R =>
          simp only [TreePage.getSize, TreePage.getMaxSize, TreePage.header] at hroom htwo
          obtain ⟨-, -, -, -, -, hrh⟩ :=
            h.leaf_entries (pairCut p before k l s r after none [] l) rfl
          have hparent : R.parentPageId = p := by rw [hrh]
          obtain ⟨rest, e, harr⟩ : ∃ rest e, L.array = rest ++ [e] :=
            ⟨_, _, (List.dropLast_append_getLast (by rintro hnil; simp [hnil] at htwo)).symm⟩
          have hlen : L.array.length - 1 = rest.length := by simp [harr]
          have hmove := LeafPage.moveLastToFrontOf_eq R harr (by omega)
          obtain ⟨htake, hdrop⟩ := split_before_last harr R.array
          simp only [wp_bind, wp_leafAt, wp_ofExcept, wp_writePage]
          refine ⟨R, h.right, _, hmove, e, rfl, ?_⟩
          simp only [hparent]
          refine h.wp_setParentKeyAt ?_ hindex fun calls => ?_
          · exact (Function.update_of_ne hpr _ _).trans
              ((Function.update_of_ne hpl _ _).trans h.page)
          · have hmoved : (childIds (.leaf L : TreePage K V)).drop
                ((TreePage.leaf L : TreePage K V).getSize - 1) = [] := by simp [childIds]
            refine hQ _ _ ?_
            rw [hmoved]
            refine h.shared_leaves ?_ ?_ ?_ ?_
            · simp only [firstKey, rightShare, TreePage.getSize, hdrop]
              rfl
            · simp only [Function.update_of_ne hne.symm, Function.update_self, leftShare,
                TreePage.getSize, htake]
            · simp only [Function.update_self, rightShare, TreePage.getSize, hdrop]
            · intro y hyl hyr
              simp only [Function.update_of_ne hyr, Function.update_of_ne hyl]
  | internal L =>
      cases pr with
      | leaf R => cases hkind
      | internal R =>
          simp only [TreePage.getSize, TreePage.getMaxSize, TreePage.header] at hroom htwo
          obtain ⟨-, -, -, -, hrh, -⟩ := h.internal_family none [] l (by simp) _ rfl
          have hparent : R.parentPageId = p := by rw [hrh]
          have hid : R.pageId = r := by rw [hrh]
          obtain ⟨rest, e, harr⟩ : ∃ rest e, L.array = rest ++ [e] :=
            ⟨_, _, (List.dropLast_append_getLast (by rintro hnil; simp [hnil] at htwo)).symm⟩
          have hlen : L.array.length - 1 = rest.length := by simp [harr]
          have hmove := InternalPage.moveLastToFrontOf_eq R harr hroom
          obtain ⟨htake, hdrop⟩ := split_before_last harr R.array
          have hvalue : L.valueAt ((L.array.length : Int) - 1) = .ok e.2 := by
            have hslot : L.array = rest ++ (e.1, e.2) :: [] := harr
            have hvalue := InternalPage.valueAt_eq hslot
            have hlen' : ((L.array.length : Int) - 1) = rest.length := by simp [harr]
            rw [hlen']
            exact hvalue
          have hmem : e.2 ∈ childIds (.internal L : TreePage K V) := by
            simp [childIds, harr]
          obtain ⟨⟨child, hchild⟩, hep, hel, her⟩ := h.child_ne (Or.inl hmem)
          have hfirst : (⟨R.toPageHeader, e :: R.array⟩ : InternalPage K).keyAt 0 = .ok e.1 :=
            InternalPage.keyAt_zero rfl
          simp only [wp_bind, wp_internalAt, wp_ofExcept, wp_writePage]
          refine ⟨R, h.right, _, hvalue, _, hmove, ?_⟩
          rw [hid]
          refine wp_adoptChild child ?_ fun calls => ?_
          · exact (Function.update_of_ne her _ _).trans
              ((Function.update_of_ne hel _ _).trans hchild)
          · refine ⟨_, hfirst, ?_⟩
            simp only [hparent]
            refine h.wp_setParentKeyAt ?_ hindex fun calls' => ?_
            · exact (Function.update_of_ne hep.symm _ _).trans
                ((Function.update_of_ne hpr _ _).trans
                  ((Function.update_of_ne hpl _ _).trans h.page))
            · have hmoved : (childIds (.internal L : TreePage K V)).drop
                  ((TreePage.internal L : TreePage K V).getSize - 1) = [e.2] := by
                have hlen' : rest.length = (rest.map Prod.snd).length := by simp
                simp only [childIds, TreePage.getSize, hlen]
                rw [harr, List.map_append, hlen', List.drop_left]
                rfl
              refine hQ _ _ ?_
              rw [hmoved]
              refine h.shared_internals (Or.inl hmem) hchild ?_ ?_ ?_ ?_
              · simp only [firstKey, rightShare, TreePage.getSize, hdrop]
                rfl
              · simp only [Function.update_of_ne hne.symm, Function.update_self, leftShare,
                  TreePage.getSize, htake]
              · simp only [Function.update_self, rightShare, TreePage.getSize, hdrop]
              · intro y hyl hyr
                simp only [Function.update_of_ne hyr, Function.update_of_ne hyl]

end Pair

end BPlusTree

end ScuDb
