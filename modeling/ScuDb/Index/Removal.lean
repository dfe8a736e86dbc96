import ScuDb.Index.Borrowing
import ScuDb.Index.Insertion
import ScuDb.Index.Underflow

/-!
Removal keeps a tree standing and takes one key out of its map.

`wp_coalesceOrRedistributeWith` goes up as long as a merge leaves the
parent with too few children, and `wp_removeWith` puts it together with
the search and with the removal from the leaf. Both hold for any function
that acts like `Redistribute`; `wp_remove` is the case of the source.
-/

namespace ScuDb

open Foundations

variable {K V B : Type} [LinearOrder B] [BoundedOrder B]

namespace BPlusTree

variable {ω : OrderedIndex K B} {R : Prop} {m : K → Option V} {t : BPlusTree K V}
  {G S : Cells B} {A : Set (B × PageId)} {H : Nat}

/-! ### Between siblings -/

section Siblings

variable {x p : PageId} {c : Cell B} {page : TreePage K V} {before : List (K × PageId)} {k : K}
  {l : PageId} {s : K} {r : PageId} {after : List (K × PageId)} {d : Cell B}
  {q : InternalPage K} {pl pr : TreePage K V}

/-- The sibling of a page is its neighbour on the left, or on the right
for the first child. It joins the page set. -/
theorem wp_findLeftSibling (h : Standing ω R m t G H [x]) (hx : G x = some c)
    (hpage : t.pages x = some page) (hroot : x ≠ t.rootPageId)
    {Q : Bool × PageId → BPlusTree K V → Prop}
    (hright : ∀ {q k s r after d pr} calls,
      Pair ω t.pages G t.rootPageId H c.parent [] k x s r after d q page pr →
      Q (true, r) { t with pageSet := t.pageSet ++ [r], calls := calls })
    (hleft : ∀ {q before k l s after d pl} calls,
      Pair ω t.pages G t.rootPageId H c.parent before k l s x after d q pl page →
      Q (false, l) { t with pageSet := t.pageSet ++ [l], calls := calls }) :
    wp (findLeftSibling true x) Q t := by
  obtain ⟨d, q, before, k, after, hd, hheight, hq, harr, hfirst⟩ := h.shape.slot hx hroot
  obtain ⟨page', hpage', hok⟩ := h.shape.page hx
  cases hpage.symm.trans hpage'
  have hpx : c.parent ∉ [x] := by
    intro hmem
    rw [List.mem_singleton] at hmem
    rw [hmem] at hd
    cases hx.symm.trans hd
    omega
  have htwo := h.one_lt_length hd hq hpx
  have hparent : page.getParentPageId = c.parent := hok.parent
  have hid : page.getPageId = x := hok.pageId
  have hindex := InternalPage.valueIndex_eq harr hfirst
  have hchild : ∀ {y}, y ∈ q.array.map Prod.snd → ∃ page, t.pages y = some page := by
    intro y hy
    have hy' : y ∈ childIds (.internal q : TreePage K V) := hy
    obtain ⟨e, he, -⟩ := h.shape.child_cell hd hq hy'
    obtain ⟨page, hpage, -⟩ := h.shape.page he
    exact ⟨page, hpage⟩
  simp only [findLeftSibling, wp_bind, wp_readPage, wp_fetchPage, wp_internalAt, wp_ofExcept]
  refine ⟨page, hpage, ?_⟩
  rw [hparent, hid]
  refine ⟨_, hq, q, hq, ?_⟩
  rcases List.eq_nil_or_concat before with rfl | ⟨front, ⟨k₁, l⟩, rfl⟩
  · rcases after with _ | ⟨⟨s, r⟩, after⟩
    · simp [harr] at htwo
    · have hslot : q.array = [(k, x)] ++ (s, r) :: after := harr
      have hvalue := InternalPage.valueAt_eq hslot
      obtain ⟨pr, hpr⟩ := hchild (y := r) (by simp [harr])
      rw [hindex]
      refine ⟨r, hvalue, ?_⟩
      refine wp_crabingProtocalFetchPage pr ?_ ?_ fun calls => ?_
      · exact hpr
      · decide
      · rw [wp_unpinPage, wp_pure]
        exact hright _ ⟨h.shape, hd, hq, harr, hpage, hpr⟩
  · have hslot : q.array = front ++ (k₁, l) :: (k, x) :: after := by
      rw [harr]
      simp
    have hvalue := InternalPage.valueAt_eq hslot
    have hlen : ((front ++ [(k₁, l)]).length : Int) = front.length + 1 := by simp
    have hzero : ¬((front.length : Int) + 1 = 0) := by omega
    have hpred : (front.length : Int) + 1 - 1 = front.length := by omega
    obtain ⟨pl, hpl⟩ := hchild (y := l) (by simp [hslot])
    rw [hindex, List.concat_eq_append, hlen, if_neg hzero, hpred, decide_eq_false hzero]
    refine ⟨l, hvalue, ?_⟩
    refine wp_crabingProtocalFetchPage pl ?_ ?_ fun calls => ?_
    · exact hpl
    · decide
    · rw [wp_unpinPage, wp_pure]
      exact hleft _ ⟨h.shape, hd, hq, hslot, hpl, hpage⟩

/-- A merge, up to the question whether the parent has too few children. -/
theorem wp_coalesce (h : Standing ω R m t G H [x])
    (pair : Pair ω t.pages G t.rootPageId H p before k l s r after d q pl pr)
    (hx : x = l ∨ x = r) (hset : r ∈ t.pageSet)
    (hfit : pl.getSize + pr.getSize ≤ pl.getMaxSize)
    (hmin : pl.getMinSize ≤ pl.getSize + pr.getSize)
    {continueWith : PageId → TreeM K V Bool} {Q : Bool → BPlusTree K V → Prop}
    (hQ : ∀ t' G' q', Standing ω R m t' G' H [p] → t'.pages p = some (.internal q') →
      q' = { q with array := before ++ (k, l) :: after } →
      (∀ y e, d.height ≤ e.height → (G' y = some e ↔ G y = some e)) →
      (∀ y e, G y = some e → y ≠ r →
        ∃ e', G' y = some e' ∧ e'.height = e.height ∧ e'.lo = e.lo) →
      (∀ y e, G y = some e → d.height < e.height → t'.pages y = t.pages y) →
      t'.rootPageId = t.rootPageId → t'.pageSet = t.pageSet →
      t'.deletedPageSet = r :: t.deletedPageSet →
      wp (if q'.array.length ≤ (TreePage.internal q' : TreePage K V).getMinSize then
        continueWith p else pure false) Q t') :
    wp (coalesce true continueWith l r p (q.valueIndex r)) Q t := by
  obtain ⟨hpl, hpr⟩ := pair.parent_ne
  have hchild : ∀ {y}, y ∈ childIds pr → y ≠ p ∧ y ≠ l ∧ y ≠ r := by
    intro y hy
    obtain ⟨-, hyp, hyl, hyr⟩ := pair.child_ne (Or.inr hy)
    exact ⟨hyp, hyl, hyr⟩
  have hpm : p ∉ childIds pr := fun hmem => (hchild hmem).1 rfl
  rw [coalesce, wp_bind]
  refine pair.wp_moveAllTo hfit pair.valueIndex_right fun pages calls hl hm hsame => ?_
  have hp : pages p = some (.internal q) := (hsame p hpl hpr hpm).trans pair.page
  simp only [wp_bind, wp_addIntoDeletedPageSet, wp_internalAt, wp_ofExcept, wp_writePage]
  have hremove := pair.remove_right
  rw [← pair.valueIndex_right] at hremove
  refine ⟨q, hp, _, hremove, ?_⟩
  obtain ⟨q', hq'⟩ : ∃ q' : InternalPage K,
      q' = { q with array := before ++ (k, l) :: after } := ⟨_, rfl⟩
  rw [← hq']
  have hrest : ∀ t' : BPlusTree K V, t'.pages = Function.update pages p (some (.internal q')) →
      t'.rootPageId = t.rootPageId → t'.headerPage = t.headerPage →
      t'.nextPageId = t.nextPageId → t'.pageSet = t.pageSet →
      t'.deletedPageSet = r :: t.deletedPageSet →
      wp (if q'.array.length ≤ (TreePage.internal q' : TreePage K V).getMinSize then
        continueWith p else pure false) Q t' := by
    intro t' hpages hroot hheader hnext hset' hdel
    have hat : t'.pages p = some (.internal q') := by rw [hpages, Function.update_self]
    have hother : ∀ {y}, y ≠ p → t'.pages y = pages y := by
      intro y hy
      rw [hpages, Function.update_of_ne hy]
    obtain ⟨G', h', hG', hkept⟩ : ∃ G' : Cells B, Standing ω R m t' G' H [p] ∧
        (∀ y c, d.height ≤ c.height → (G' y = some c ↔ G y = some c)) ∧
        ∀ y e, G y = some e → y ≠ r →
          ∃ e', G' y = some e' ∧ e'.height = e.height ∧ e'.lo = e.lo :=
      h.merge pair (by simpa using hx) hfit hmin (hq' ▸ hat)
      ((hother hpl.symm).trans hl) (fun y hy => (hother (hchild hy).1).trans (hm y hy))
      (fun y hyp hyl hyr hym => (hother hyp).trans (hsame y hyl hyr hym)) hroot hheader hnext
      (hset' ▸ hset) (fun y hy => by
        rw [hdel, List.mem_cons] at hy
        rw [hset']
        exact hy.imp_right (h.deleted y))
    refine hQ t' G' q' h' hat hq' hG' hkept ?_ hroot hset' hdel
    -- further up than the parent no page is touched
    intro y e hy hheight
    have hne : ∀ {z f}, G z = some f → f.height ≤ d.height → y ≠ z := by
      rintro z f hz hle rfl
      cases hy.symm.trans hz
      omega
    obtain ⟨cl, hcl, -, hhl⟩ := pair.left_cell
    obtain ⟨cr, hcr, -, hhr⟩ := pair.right_cell
    rw [hother (hne pair.parent le_rfl),
      hsame y (hne hcl (by omega)) (hne hcr (by omega))]
    intro hmem
    obtain ⟨e', he', -, hhe⟩ := h.shape.child_cell hcr pair.right hmem
    exact hne he' (by omega) rfl
  exact hrest _ rfl rfl rfl rfl rfl rfl

theorem childIds_cases (pair : Pair ω t.pages G t.rootPageId H p before k l s r after d q pl pr) :
    childIds pl = [] ∧ childIds pr = [] ∨ (childIds pl).length = pl.getSize := by
  have hkind := pair.sameKind
  cases pl with
  | leaf L =>
      cases pr with
      | leaf R => exact Or.inl ⟨rfl, rfl⟩
      | internal R => cases hkind
  | internal L => exact Or.inr (by simp [childIds, TreePage.getSize])

theorem wp_redistribute_first (h : Standing ω R m t G H [l])
    (pair : Pair ω t.pages G t.rootPageId H p [] k l s r after d q pl pr)
    (hunder : Underfull pl) (hbig : pl.getMaxSize < pl.getSize + pr.getSize)
    (hS : Outlived S A G t.deletedPageSet)
    {Q : Unit → BPlusTree K V → Prop} (hQ : ∀ pages calls,
      StandsWith S A ω R m { t with pages := pages, calls := calls } →
      Q () { t with pages := pages, calls := calls }) :
    wp (redistribute r l (q.valueIndex l)) Q t := by
  obtain ⟨hfive, hmax, hminl, hminr⟩ := pair.bounds
  obtain ⟨cr, hcr, -⟩ := pair.right_cell
  have hsize := h.sized r cr pr hcr (by simpa using pair.left_ne_right) pair.right
  have hle := hunder.le
  have hge := hunder.ge
  have hsib := hsize.2
  have hnodup := List.nodup_append.mp pair.childIds_nodup
  have hdisj : ∀ y ∈ (childIds pr).take 1, y ∉ childIds pl := fun y hy hmem =>
    hnodup.2.2 y hmem y (List.mem_of_mem_take hy) rfl
  have hindex : q.valueIndex l = 0 := pair.valueIndex_left
  rw [redistribute, if_pos hindex]
  refine pair.wp_moveFirstToEndOf (by omega) (by omega) fun pages calls hshared => hQ _ _ ?_
  refine h.share pair (by simp) hshared (by omega) ?_ ?_ ?_ (by omega) (by omega) (by omega)
    (by omega) rfl rfl rfl h.deleted hS ?_
  · exact fun y hy => Or.inr (List.mem_of_mem_take hy)
  · intro y hy
    rcases childIds_cases pair with ⟨hl, hr⟩ | hlen
    · simp [hl, hr] at hy
    · rw [← hlen, List.take_length_add_append, List.mem_append] at hy
      rcases hy with hy | hy
      · exact Or.inr ⟨fun hmem => hdisj y hmem hy, hy⟩
      · exact Or.inl ⟨hy, rfl⟩
  · intro y hy
    rcases childIds_cases pair with ⟨hl, hr⟩ | hlen
    · simp [hl, hr] at hy
    · rw [← hlen, List.drop_length_add_append] at hy
      refine Or.inr ⟨fun hmem => ?_, List.mem_of_mem_drop hy⟩
      exact List.disjoint_take_drop hnodup.2.1 le_rfl hmem hy
  · -- what is left of the right page lies where all of it was
    intro b s' hb hkey
    obtain ⟨c, hc, hzero, hlo⟩ := hS.marks b r hb
    obtain ⟨L, R, rfl, rfl, -, -, hok⟩ := pair.leaves hc hzero
    simp only [rightShare, TreePage.getSize, firstKey, List.drop_length_add_append,
      Option.map_eq_some_iff] at hkey
    obtain ⟨e, he, rfl⟩ := hkey
    have hmem : e ∈ R.array := List.mem_of_mem_drop (List.mem_of_mem_head? he)
    exact hlo.trans_le (hok.entries.mem e hmem).2.1

theorem wp_redistribute_last (h : Standing ω R m t G H [r])
    (pair : Pair ω t.pages G t.rootPageId H p before k l s r after d q pl pr)
    (hunder : Underfull pr) (hbig : pr.getMaxSize < pr.getSize + pl.getSize)
    (hS : Outlived S A G t.deletedPageSet)
    (hspare : ∀ b, (b, r) ∈ A → ¬Disturbs t.pages (ω.UpTo b) r r)
    {Q : Unit → BPlusTree K V → Prop} (hQ : ∀ pages calls,
      StandsWith S A ω R m { t with pages := pages, calls := calls } →
      Q () { t with pages := pages, calls := calls }) :
    wp (redistribute l r (q.valueIndex r)) Q t := by
  obtain ⟨hfive, hmax, hminl, hminr⟩ := pair.bounds
  obtain ⟨cl, hcl, -⟩ := pair.left_cell
  have hsize := h.sized l cl pl hcl (by simpa using pair.left_ne_right.symm) pair.left
  have hle := hunder.le
  have hge := hunder.ge
  have hsib := hsize.2
  have hnodup := List.nodup_append.mp pair.childIds_nodup
  have hindex : q.valueIndex r ≠ 0 := by
    rw [pair.valueIndex_right]
    omega
  rw [redistribute, if_neg hindex]
  refine pair.wp_moveLastToFrontOf (by omega) (by omega) pair.valueIndex_right
    fun pages calls hshared => hQ _ _ ?_
  refine h.share pair (by simp) hshared (by omega) ?_ ?_ ?_ (by omega) (by omega) (by omega)
    (by omega) rfl rfl rfl h.deleted hS ?_
  · exact fun y hy => Or.inl (List.mem_of_mem_drop hy)
  · intro y hy
    rcases childIds_cases pair with ⟨hl, hr⟩ | hlen
    · simp [hl, hr] at hy
    · rw [List.take_append_of_le_length (by omega)] at hy
      refine Or.inr ⟨fun hmem => ?_, List.mem_of_mem_take hy⟩
      exact List.disjoint_take_drop hnodup.1 le_rfl hy hmem
  · intro y hy
    rcases childIds_cases pair with ⟨hl, hr⟩ | hlen
    · simp [hl, hr] at hy
    · rw [List.drop_append_of_le_length (by omega), List.mem_append] at hy
      rcases hy with hy | hy
      · exact Or.inl ⟨hy, rfl⟩
      · exact Or.inr ⟨fun hmem => hnodup.2.2 y (List.mem_of_mem_drop hmem) y hy rfl, hy⟩
  · -- the right page starts with the last entry of the left one
    intro b s' hb hkey
    obtain ⟨c, hc, hzero, -⟩ := hS.marks b r hb
    obtain ⟨L, R, rfl, rfl, -, -, -⟩ := pair.leaves hc hzero
    rcases List.eq_nil_or_concat L.array with hnil | ⟨front, e, harr⟩
    · simp only [TreePage.getSize, hnil, List.length_nil] at hbig hle
      omega
    · rw [List.concat_eq_append] at harr
      have hdrop : (L.array ++ R.array).drop (L.array.length - 1) = e :: R.array := by
        simp [harr]
      simp only [rightShare, TreePage.getSize, firstKey, hdrop, List.head?_cons,
        Option.map_some, Option.some_inj] at hkey
      subst hkey
      refine pair.lt_of_borrows hS hspare hbig hb (e := e) ?_
      rw [entries_leaf, harr, List.getLast?_concat]

end Siblings

/-! ### The root -/

theorem Standing.eq_root {x : List PageId} (h : Standing ω R m t G H x) (hzero : H = 0)
    {y : PageId} {c : Cell B} (hy : G y = some c) : y = t.rootPageId := by
  by_contra hne
  have hheight := (h.shape.linked hy hne).1
  omega

theorem Standing.eq_none {x : List PageId} (h : Standing ω R m t G H x) (hzero : H = 0)
    {leaf : LeafPage K V} (hpage : t.pages t.rootPageId = some (.leaf leaf))
    (hnil : leaf.array = []) (k : K) : m k = none := by
  cases hm : m k with
  | none => rfl
  | some v =>
      obtain ⟨y, c, hy, hmem⟩ := (h.holds k v).mp hm
      rw [h.eq_root hzero hy, hpage, entries_leaf, hnil] at hmem
      cases hmem

/-- A page with the entries it needs below the root has more than a root needs. -/
theorem Standing.sized_as_root (h : Standing ω R m t G H [t.rootPageId]) {y : PageId} {c : Cell B}
    (hy : G y = some c) (hyr : y ≠ t.rootPageId) {page : TreePage K V}
    (hpage : t.pages y = some page) :
    (page.setParentPageId invalidPageId).getMinSize ≤
        (page.setParentPageId invalidPageId).getSize ∧
      (page.setParentPageId invalidPageId).getSize ≤
        (page.setParentPageId invalidPageId).getMaxSize := by
  obtain ⟨page', hpage', hok⟩ := h.shape.page hy
  cases hpage.symm.trans hpage'
  obtain ⟨hlo, hhi⟩ := h.sized _ _ _ hy (by simpa using hyr) hpage
  have hnotroot : page.isRootPage = false := by
    rw [Bool.eq_false_iff]
    exact fun htrue => hyr ((h.shape.isRootPage_iff hy hpage).mp htrue)
  have hmin := getMinSize_of_not_root hnotroot
  have hmax := hok.getMaxSize_eq
  have hfive := LeafPage.five_le_initMaxSize ω.keySize
  have hsix := InternalPage.six_le_initMaxSize ω.keySize
  have hroom : 5 ≤ page.getMaxSize := by
    rw [hmax]
    split <;> omega
  have htwo : (page.setParentPageId invalidPageId).getMinSize ≤ 2 := by
    simp only [TreePage.getMinSize, TreePage.isRootPage, header_setParentPageId, decide_true,
      if_true]
    split <;> omega
  rw [getSize_setParentPageId]
  refine ⟨by omega, ?_⟩
  simpa [TreePage.getMaxSize] using hhi

/-- When its only child takes the place of the root, the other pages stay where they are. -/
theorem Standing.outlived_drop {x : List PageId} (h : Standing ω R m t G H x)
    (hS : Outlived S A G t.deletedPageSet) {u : InternalPage K} {k : K} {child : PageId}
    (hpage : t.pages t.rootPageId = some (.internal u)) (harr : u.array = [(k, child)]) :
    Outlived S A (dropCells G t.rootPageId child H) (t.rootPageId :: t.deletedPageSet) := by
  refine hS.next (r := t.rootPageId) (fun y e he hyr => ?_) (fun _ => Or.inr List.mem_cons_self)
    (fun y => List.mem_cons_of_mem _) fun b hb => ?_
  · by_cases hyc : y = child
    · subst hyc
      have hcell := (h.shape.internalOk h.shape.top hpage).children (y, ⊥, ⊤) (by simp [harr])
      cases he.symm.trans hcell
      exact ⟨⟨H - 1, ⊥, ⊤, invalidPageId⟩, by simp [dropCells, hyr], rfl, rfl⟩
    · exact ⟨e, by simp [dropCells, hyr, hyc, he], rfl, rfl⟩
  · exact absurd hb (hS.not_marked h.shape.top (fun _ => rfl) b)

/-- What becomes of a root that has lost an entry. -/
theorem wp_adjustRoot {page : TreePage K V} (h : Standing ω R m t G H [t.rootPageId])
    (hpage : t.pages t.rootPageId = some page) (hunder : Underfull page)
    (hset : t.rootPageId ∈ t.pageSet) (hnodup : t.pageSet.Nodup)
    (hS : Outlived S A G t.deletedPageSet) {Q : Bool → BPlusTree K V → Prop}
    (hQ : ∀ b t', Ending S A ω R m t' → Q b t') :
    wp (do
      let delOldRoot ← adjustRoot ω.toIndexParams t.rootPageId
      (if delOldRoot = true then addIntoDeletedPageSet true t.rootPageId else pure ())
      pure delOldRoot) Q t := by
  have hisroot := (h.shape.isRootPage_iff h.shape.top hpage).mpr rfl
  have hle := hunder.le
  have hge := hunder.ge
  rw [wp_bind, adjustRoot, wp_bind, wp_readPage]
  refine ⟨page, hpage, ?_⟩
  cases page with
  | leaf leaf =>
      have hlt := hunder.leaf rfl
      simp only [TreePage.getMinSize, hisroot, TreePage.isLeafPage, if_true,
        TreePage.getSize] at hlt
      have hnil : leaf.array = [] := List.eq_nil_of_length_eq_zero (by omega)
      have hzero : H = 0 := (h.shape.leafOk h.shape.top hpage).height
      simp only [wp_bind, wp_setRootPageId]
      refine wp_updateRootPageId_update _ ω.name_short fun header calls hrec hcount => ?_
      simp only [wp_pure, if_true, wp_addIntoDeletedPageSet]
      refine hQ _ _ ⟨hnodup, ?_, h.next_fresh.2, h.header.updated hrec hcount,
        Or.inl ⟨rfl, h.eq_none hzero hpage hnil, ?_⟩⟩
      · intro y hy
        rcases List.mem_cons.mp hy with rfl | hy
        · exact hset
        · exact (h.deleted y hy).1
      · refine hS.next (r := t.rootPageId) (fun y c hc hne => absurd (h.eq_root hzero hc) hne)
          (fun _ => Or.inr List.mem_cons_self) (fun y => List.mem_cons_of_mem _) fun b hb => ?_
        exact absurd hb (hS.not_marked h.shape.top (fun _ => rfl) b)
  | internal u =>
      have hmin : (TreePage.internal u : TreePage K V).getMinSize = 2 := by
        simp [TreePage.getMinSize, hisroot, TreePage.isLeafPage]
      rw [hmin] at hle hge
      simp only [TreePage.getSize] at hle hge
      dsimp only
      split
      · -- the only child becomes the root
        rename_i hone
        obtain ⟨⟨k, child⟩, harr⟩ := List.length_eq_one_iff.mp hone
        have hvalue : u.valueAt 0 = .ok child :=
          InternalPage.valueAt_eq (show u.array = [] ++ (k, child) :: [] from harr)
        have honly : u.removeAndReturnOnlyChild = .ok (child, { u with array := [] }) := by
          rw [InternalPage.removeAndReturnOnlyChild, hvalue]
          simp [hone]
          rfl
        have hmem : child ∈ childIds (.internal u : TreePage K V) := by simp [childIds, harr]
        obtain ⟨c, hc, hparent, hheight⟩ := h.shape.child_cell h.shape.top hpage hmem
        have hcr := h.shape.ne_root_of_parent h.shape.top hc hparent
        obtain ⟨pc, hpc, -⟩ := h.shape.page hc
        simp only [wp_bind, wp_ofExcept, wp_writePage, wp_setRootPageId]
        refine ⟨_, honly, ?_⟩
        refine wp_updateRootPageId_update _ ω.name_short fun header calls hrec hcount => ?_
        refine wp_adoptChild pc ?_ fun calls' => ?_
        · exact (Function.update_of_ne hcr _ _).trans hpc
        simp only [wp_pure, if_true, wp_addIntoDeletedPageSet]
        refine hQ _ _ (Standing.ending (Standing.narrow (h.drop hpage harr ?_ ?_ ?_ ?_ ?_ ?_) ?_)
          hnodup (h.outlived_drop hS hpage harr))
        · simp only [Function.update_self, hpc]
          rfl
        · intro y e _ hyr hyc
          simp only [Function.update_of_ne hyc, Function.update_of_ne hyr]
        · rfl
        · exact h.header.updated hrec hcount
        · rfl
        · intro y hy
          rcases List.mem_cons.mp hy with rfl | hy
          · exact ⟨hset, by simp [dropCells]⟩
          · obtain ⟨hmem, hnone⟩ := h.deleted y hy
            refine ⟨hmem, ?_⟩
            have hyc : y ≠ child := by
              rintro rfl
              rw [hnone] at hc
              cases hc
            simp [dropCells, hyc, hnone]
        · intro y hy
          refine Or.inr fun e page hy' hpage' => ?_
          rcases List.mem_cons.mp hy with rfl | hy
          · -- the new root has more entries than a root needs
            simp only [Function.update_self, Option.some_inj] at hpage'
            subst hpage'
            exact h.sized_as_root hc hcr hpc
          · rw [List.mem_singleton] at hy
            subst hy
            simp [dropCells] at hy'
      · -- two children are enough for a root
        rename_i hone
        have htwo : u.array.length = 2 := by omega
        rw [wp_pure]
        simp only [Bool.false_eq_true, if_false, wp_bind, wp_pure]
        refine hQ _ _ ((h.narrow fun y hy => Or.inr ?_).ending hnodup hS)
        intro e page _ hpage'
        rw [List.mem_singleton] at hy
        subst hy
        cases hpage.symm.trans hpage'
        have hmax := (h.shape.internalOk h.shape.top hpage).maxSize
        have hsix := InternalPage.six_le_initMaxSize ω.keySize
        refine ⟨?_, ?_⟩
        · rw [hmin]
          simp only [TreePage.getSize]
          omega
        · simp only [TreePage.getSize, TreePage.getMaxSize, TreePage.header]
          omega

/-! ### On the way up -/

/-- `Coalesce`, where `continueWith` may be relied on for a parent with
too few children. -/
theorem wp_coalesce_up {x p : PageId} {before : List (K × PageId)} {k : K} {l : PageId} {s : K}
    {r : PageId} {after : List (K × PageId)} {d : Cell B} {q : InternalPage K}
    {pl pr : TreePage K V} (h : Standing ω R m t G H [x])
    (pair : Pair ω t.pages G t.rootPageId H p before k l s r after d q pl pr)
    (hx : x = l ∨ x = r) (hset : r ∈ t.pageSet)
    (hfit : pl.getSize + pr.getSize ≤ pl.getMaxSize)
    (hmin : pl.getMinSize ≤ pl.getSize + pr.getSize)
    (hheld : Held .delete t.pages G t.rootPageId t.pageSet p)
    (hlevel : OnePerLevel G t.pageSet d.height)
    (hS : Outlived S A G t.deletedPageSet) (hr : ∀ b, (b, r) ∉ A)
    {continueWith : PageId → TreeM K V Bool} {Q : Bool → BPlusTree K V → Prop}
    (hcontinue : ∀ {t' G' q'}, Standing ω R m t' G' H [p] → G' p = some d →
      t'.pages p = some (.internal q') → Underfull (.internal q' : TreePage K V) →
      p ∈ t'.pageSet →
      (p ≠ t'.rootPageId → Held .delete t'.pages G' t'.rootPageId t'.pageSet d.parent) →
      OnePerLevel G' t'.pageSet d.height →
      Outlived S A G' t'.deletedPageSet → wp (continueWith p) Q t')
    (hQ : ∀ b t', Ending S A ω R m t' → Q b t') :
    wp (coalesce true continueWith l r p (q.valueIndex r)) Q t := by
  have hpx : p ∉ [x] := by
    intro hmem
    rw [List.mem_singleton] at hmem
    rcases hx with rfl | rfl
    · exact pair.parent_ne.1 hmem
    · exact pair.parent_ne.2 hmem
  obtain ⟨hlo, hhi⟩ := h.sized p d _ pair.parent hpx pair.page
  simp only [TreePage.getSize] at hlo hhi
  refine wp_coalesce h pair hx hset hfit hmin
    fun t' G' q' h' hq' heq hcells hkept hpages hroot' hset' hdel' => ?_
  have hlen : q'.array.length + 1 = q.array.length := by
    rw [heq, pair.array]
    simp
    omega
  have hheader : (TreePage.internal q' : TreePage K V).header =
      (TreePage.internal q : TreePage K V).header := by rw [heq]; rfl
  have hmin' : (TreePage.internal q' : TreePage K V).getMinSize =
      (TreePage.internal q : TreePage K V).getMinSize := by
    simp only [TreePage.getMinSize, TreePage.isRootPage, TreePage.getMaxSize, hheader]
    rfl
  have hd' := (hcells p d le_rfl).mpr pair.parent
  have hlevel' : OnePerLevel G' t'.pageSet d.height := by
    rw [hset']
    exact hlevel.congr fun y e hle hy => (hcells y e hle).mp hy
  have hS' : Outlived S A G' t'.deletedPageSet := by
    rw [hdel']
    exact hS.next hkept (fun _ => Or.inr List.mem_cons_self) (fun y => List.mem_cons_of_mem _)
      fun b hb => absurd hb (hr b)
  rw [wp_ite]
  constructor
  · intro hle
    refine hcontinue h' hd' hq' ⟨hle, ?_, ?_⟩ ?_ ?_ hlevel' hS'
    · simp only [TreePage.getSize]
      omega
    · simp [TreePage.isLeafPage]
    · rw [hset']
      exact hheld.mem
    · -- a parent that is underfull now was not safe, so its own parent is held
      intro hroot
      rw [hroot'] at hroot ⊢
      have hup := hheld.parent pair.parent pair.page hroot (not_isSafe_internal (by omega))
      obtain ⟨-, e, -, he, hheight, -⟩ := h.shape.linked pair.parent hroot
      refine hup.mono h.shape he le_rfl (fun y f hy hle' => ?_) fun y hy => ?_
      · exact ⟨(hcells y f (by omega)).mpr hy, hpages y f hy (by omega)⟩
      · rw [hset']
        exact hy
  · intro hgt
    rw [wp_pure]
    refine hQ _ _ ((h'.narrow fun y hy => Or.inr ?_).ending hlevel'.nodup hS')
    intro e page _ hpage
    rw [List.mem_singleton] at hy
    subst hy
    cases hq'.symm.trans hpage
    refine sizeOk_of_header (.internal q) hheader rfl ?_ ?_
    · simp only [TreePage.getSize]
      omega
    · simp only [TreePage.getSize]
      omega

/-- `CoalesceOrRedistribute` on the one page with too few entries. -/
theorem wp_coalesceOrRedistributeWith {share : PageId → PageId → Int → TreeM K V Unit}
    (hshare : LikeRedistribute ω share) {fuel : Nat} {x : PageId} {c : Cell B}
    {page : TreePage K V} (h : Standing ω R m t G H [x]) (hx : G x = some c)
    (hpage : t.pages x = some page)
    (hunder : Underfull page) (hset : x ∈ t.pageSet)
    (hheld : x ≠ t.rootPageId → Held .delete t.pages G t.rootPageId t.pageSet c.parent)
    (hlevel : OnePerLevel G t.pageSet c.height)
    (hS : Outlived S A G t.deletedPageSet)
    (hspare : ∀ b y, (b, y) ∈ A → ¬Disturbs t.pages (ω.UpTo b) x y)
    (hfuel : H < c.height + fuel) {Q : Bool → BPlusTree K V → Prop}
    (hQ : ∀ b t', Ending S A ω R m t' → Q b t') :
    wp (coalesceOrRedistributeWith share ω.toIndexParams true fuel x) Q t := by
  induction fuel generalizing t G x c page Q with
  | zero =>
      have := h.shape.height_le hx
      omega
  | succ fuel ih =>
      have hisroot := h.shape.isRootPage_iff hx hpage
      rw [coalesceOrRedistributeWith, wp_bind, wp_readPage]
      refine ⟨page, hpage, ?_⟩
      by_cases hroot : x = t.rootPageId
      · subst hroot
        rw [if_pos (hisroot.mpr rfl)]
        exact wp_adjustRoot h hpage hunder hset hlevel.nodup hS hQ
      · rw [if_neg (fun htrue => hroot (hisroot.mp htrue)), wp_bind]
        obtain ⟨page', hpage', hok⟩ := h.shape.page hx
        cases hpage.symm.trans hpage'
        have hparent : page.getParentPageId = c.parent := hok.parent
        have hle := hunder.le
        have hge := hunder.ge
        have hend : ∀ {dirty b} {t' : BPlusTree K V}, Ending S A ω R m t' →
            wp (unpinPage c.parent dirty) (fun _ s => wp (pure b : TreeM K V Bool) Q s) t' := by
          intro dirty b t' h'
          rw [wp_unpinPage, wp_pure]
          exact hQ _ _ (h'.record rfl rfl rfl rfl rfl rfl)
        -- a sibling has joined the page set
        have hjoin : ∀ (y : PageId) (calls : List PoolCall),
            Standing ω R m { t with pageSet := t.pageSet ++ [y], calls := calls } G H [x] := by
          intro y calls
          refine h.frame rfl rfl rfl (fun _ _ _ => rfl) fun z hz => ?_
          obtain ⟨hmem, hnone⟩ := h.deleted z hz
          exact ⟨List.mem_append_left _ hmem, hnone⟩
        have hheld' : ∀ y, Held .delete t.pages G t.rootPageId (t.pageSet ++ [y]) c.parent := by
          intro y
          exact (hheld hroot).subset fun z hz => List.mem_append_left _ hz
        have hlevel' : ∀ {y e}, G y = some e → e.height = c.height → y ≠ x →
            OnePerLevel G (t.pageSet ++ [y]) (c.height + 1) :=
          fun hy heq hne => hlevel.join hset hx rfl hy heq hne
        -- what a redistribution leaves is a tree
        have hshared : ∀ {b dirty} {y : PageId} {pages : Pages K V} {calls : List PoolCall},
            OnePerLevel G (t.pageSet ++ [y]) (c.height + 1) →
            StandsWith S A ω R m { t with
              pages := pages, pageSet := t.pageSet ++ [y], calls := calls } →
            wp (unpinPage c.parent dirty) (fun _ s => wp (pure b : TreeM K V Bool) Q s) { t with
              pages := pages, pageSet := t.pageSet ++ [y], calls := calls } := by
          intro b dirty y pages calls hlevel₂ h'
          exact hend (h'.ending hlevel₂.nodup)
        -- what goes on above the leaves disturbs none of them
        have hspare' : ∀ {t' : BPlusTree K V} {p q'}, t'.pages p = some (.internal q') →
            ∀ b y, (b, y) ∈ A → ¬Disturbs t'.pages (ω.UpTo b) p y := by
          intro t' p q' hp b y _ hdisturbs
          cases hdisturbs with
          | mergesNext hx => cases hp.symm.trans hx
          | merged hx => cases hp.symm.trans hx
          | borrows hx => cases hp.symm.trans hx
        refine wp_findLeftSibling h hx hpage hroot ?_ ?_
        · intro q k s r after d pr calls pair
          obtain ⟨hfive, hmax, hminl, hminr⟩ := pair.bounds
          obtain ⟨cl, hcl, -, hheight⟩ := pair.left_cell
          cases hx.symm.trans hcl
          obtain ⟨cr, hcr, -, hheightr⟩ := pair.right_cell
          have hsib := (h.sized r cr pr hcr (by simpa using pair.left_ne_right) pair.right).1
          have hlevel₂ := hlevel' hcr (by omega) pair.left_ne_right
          simp only [hparent, wp_bind, wp_fetchPage, wp_internalAt, wp_readPage]
          refine ⟨_, pair.page, q, pair.page, pr, pair.right, ?_⟩
          rw [wp_ite]
          constructor
          · intro hfit
            simp only [if_true, wp_bind]
            refine wp_coalesce_up (hjoin r _) pair (Or.inl rfl) ?_ hfit ?_ ?_ ?_ hS ?_ ?_
              fun b t' h' => ?_
            · simp
            · omega
            · exact hheld' r
            · exact hlevel₂.mono (by omega)
            · exact Pair.not_marked (t := t) pair hS (Or.inl ⟨rfl, rfl⟩)
                (fun b hb => hspare b r hb) hfit
            · intro t' G' q' h' hd' hq' hunder' hset' hheld₂ hlevel₃ hS'
              refine ih h' hd' hq' hunder' hset' hheld₂ hlevel₃ hS' (hspare' hq') (by omega)
                fun b t' h' => ?_
              exact hend h'
            · exact hend h'
          · intro hbig
            rw [wp_bind]
            refine (hshare (t := { t with pageSet := t.pageSet ++ [r], calls := _ }) pair).1 rfl ?_
            refine wp_redistribute_first (hjoin r _) pair hunder ?_ hS fun pages calls h' => ?_
            · omega
            · rw [wp_bind]
              exact hshared hlevel₂ h'
        · intro q before k l s after d pl calls pair
          obtain ⟨hfive, hmax, hminl, hminr⟩ := pair.bounds
          obtain ⟨cr, hcr, -, hheight⟩ := pair.right_cell
          cases hx.symm.trans hcr
          obtain ⟨cl, hcl, -, hheightl⟩ := pair.left_cell
          have hsib := (h.sized l cl pl hcl (by simpa using pair.left_ne_right.symm) pair.left).1
          have hlevel₂ := hlevel' hcl (by omega) pair.left_ne_right.symm
          simp only [hparent, wp_bind, wp_fetchPage, wp_internalAt, wp_readPage]
          refine ⟨_, pair.page, q, pair.page, pl, pair.left, ?_⟩
          rw [wp_ite]
          constructor
          · intro hfit
            simp only [Bool.false_eq_true, if_false, wp_bind]
            refine wp_coalesce_up (hjoin l _) pair (Or.inr rfl) ?_ ?_ ?_ ?_ ?_ hS ?_ ?_
              fun b t' h' => ?_
            · exact List.mem_append_left _ hset
            · omega
            · omega
            · exact hheld' l
            · exact hlevel₂.mono (by omega)
            · exact Pair.not_marked (t := t) pair hS (Or.inr rfl) (fun b hb => hspare b _ hb)
                (by omega)
            · intro t' G' q' h' hd' hq' hunder' hset' hheld₂ hlevel₃ hS'
              refine ih h' hd' hq' hunder' hset' hheld₂ hlevel₃ hS' (hspare' hq') (by omega)
                fun b t' h' => ?_
              exact hend h'
            · exact hend h'
          · intro hbig
            rw [wp_bind]
            refine (hshare (t := { t with pageSet := t.pageSet ++ [l], calls := _ }) pair).2
              (by omega) ?_
            refine wp_redistribute_last (hjoin l _) pair hunder ?_ hS
              (fun b hb => hspare b _ hb) fun pages calls h' => ?_
            · omega
            · rw [wp_bind]
              exact hshared hlevel₂ h'

/-! ### The operation -/

section Operation

variable {key : K}

/-- The removal of a key disturbs a leaf: it takes an entry out of the
leaf `x`, and that has to be balanced. -/
def RemovalDisturbs (params : IndexParams K) (pages : Pages K V) (key : K) (low : K → Prop)
    (x y : PageId) : Prop :=
  ∃ leaf leaf' : LeafPage K V, pages x = some (.leaf leaf) ∧
    leaf' = leaf.removeAndDeleteRecord params.comparator key ∧
    leaf'.array.length < (TreePage.leaf leaf').getMinSize ∧
    Disturbs (Function.update pages x (some (.leaf leaf'))) low x y

omit [LinearOrder B] [BoundedOrder B] in
theorem RemovalDisturbs.mono {params : IndexParams K} {pages : Pages K V} {low low' : K → Prop}
    {x y : PageId} (h : RemovalDisturbs params pages key low x y) (hlow : ∀ k, low k → low' k) :
    RemovalDisturbs params pages key low' x y := by
  obtain ⟨leaf, leaf', hleaf, hremove, hunder, hdisturbs⟩ := h
  exact ⟨leaf, leaf', hleaf, hremove, hunder, hdisturbs.mono hlow⟩

/-- Without the entry for the key in its leaf, the map lacks the key. -/
theorem Standing.removed_iff [DecidableEq K] {x : List PageId} (hs : Standing ω R m t G H x)
    {p : PageId} {c : Cell B} {leaf : LeafPage K V} (hp : G p = some c)
    (hleaf : t.pages p = some (.leaf leaf)) (hlo : c.lo ≤ ω.rank key) (hhi : ω.rank key < c.hi)
    {l : List (K × V)} (hmem : ∀ e, e ∈ l ↔ e ∈ leaf.array ∧ e.1 ≠ key) (k : K) (v : V) :
    Function.update m key none k = some v ↔
      (k, v) ∈ l ∨ m k = some v ∧ (k, v) ∉ leaf.array := by
  rw [hmem]
  by_cases hk : k = key
  · subst hk
    rw [hs.holds_iff hp hleaf hlo hhi]
    simp
  · have hin : (k, v) ∈ leaf.array → m k = some v := fun hin =>
      (hs.holds k v).mpr ⟨p, c, hp, by rw [hleaf]; exact hin⟩
    simp only [Function.update_of_ne hk, ne_eq, hk, not_false_eq_true, and_true]
    tauto

/-- `Remove` takes the key out of the map, also with another function
that acts like `Redistribute`. The leaves that it does not disturb start
above their marks. -/
theorem Standing.wp_removeWith [DecidableEq K] {share : PageId → PageId → Int → TreeM K V Unit}
    (hshare : LikeRedistribute ω share)
    (hneutral : ∀ neighbor node index, Neutral (share neighbor node index))
    (hs : Standing ω R m t G H []) (hset₀ : t.pageSet = []) (hdel : t.deletedPageSet = [])
    (hkey : key ∈ ω.keys) (hA : ∀ b y, (b, y) ∈ A → Above G b y)
    (hspare : ∀ p c, G p = some c → c.height = 0 → c.lo ≤ ω.rank key → ω.rank key < c.hi →
      ∀ b y, (b, y) ∈ A →
        ¬RemovalDisturbs ω.toIndexParams t.pages key (ω.UpTo b) p y) :
    wp (removeWith share ω.toIndexParams key true) (fun _ t' =>
      Represents ω R (Function.update m key none) t' ∧ (Quiet t → Settled t t') ∧
        Remains G A ω R (Function.update m key none) t') t := by
  simp only [removeWith, wp_bind, wp_getRootPageId]
  have hne : t.rootPageId ≠ invalidPageId := hs.shape.root_ne
  rw [if_neg hne, wp_bind]
  · refine hs.wp_findLeafPage_write (by decide) hset₀ hdel hkey ?_
    intro p c leaf count pageSet calls hp hzero hleaf hlo hhi hheld hpath hcarry
    have hok := hs.shape.leafOk hp hleaf
    obtain ⟨hmin, hmax⟩ := hs.sized p c _ hp (by simp) hleaf
    simp only [TreePage.getSize] at hmin hmax
    obtain ⟨l, hremove, hl, hlen, hmem⟩ :=
      LeafPage.removeAndDeleteRecord_eq ω.ranked hok.entries hkey
    simp only [wp_bind, wp_leafAt, wp_writePage]
    refine ⟨leaf, hleaf, ?_⟩
    rw [hremove]
    obtain ⟨leaf', hleaf'⟩ : ∃ leaf' : LeafPage K V, leaf' = { leaf with array := l } := ⟨_, rfl⟩
    have hlen' : leaf'.array.length = l.length := by rw [hleaf']
    have hheader : (TreePage.leaf leaf' : TreePage K V).header =
        (TreePage.leaf leaf : TreePage K V).header := by rw [hleaf']; rfl
    have hmin' : (TreePage.leaf leaf' : TreePage K V).getMinSize =
        (TreePage.leaf leaf : TreePage K V).getMinSize := by
      simp only [TreePage.getMinSize, TreePage.isRootPage, TreePage.getMaxSize, hheader]
      rfl
    have hlength : l.length = leaf.array.length ∨ l.length + 1 = leaf.array.length :=
      hlen.imp_left fun heq => by rw [heq]
    rw [← hleaf']
    -- the leaf has lost the entry: the tree stands again, but for the leaf's size
    have hrest : ∀ s : BPlusTree K V,
        Standing ω R (Function.update m key none) s G H [p] →
        s.pages p = some (.leaf leaf') → s.rootPageId = t.rootPageId →
        (∀ y, y ≠ p → s.pages y = t.pages y) → s.pageSet = pageSet →
        wp (if leaf'.array.length < (TreePage.leaf leaf' : TreePage K V).getMinSize then do
            let t ← get
            let _ ← coalesceOrRedistributeWith share ω.toIndexParams true t.nextPageId.toNat p
            pure ()
          else pure ()) (fun _ s' => Ending G A ω R (Function.update m key none) s') s := by
      intro s h' hpage' hroot hsame hset
      rw [wp_ite]
      constructor
      · intro hlt
        simp only [wp_bind, wp_get]
        refine wp_coalesceOrRedistributeWith hshare h' hp hpage' ⟨?_, ?_, fun _ => hlt⟩ ?_ ?_
          (hset ▸ hzero ▸ hpath.toOnePerLevel) (.refl hA) ?_ ?_ ?_
        · exact le_of_lt hlt
        · simp only [TreePage.getSize]
          omega
        · rw [hset]
          exact hheld.mem
        · -- the leaf was not safe, so the pages above it are held
          rw [hset, hroot]
          intro hpr
          have hup := hheld.parent hp hleaf hpr (not_isSafe_leaf (by omega))
          obtain ⟨-, d, -, hd, hheight, -⟩ := hs.shape.linked hp hpr
          refine hup.mono hs.shape hd (n := 1) (by omega) (fun z e hz hle => ⟨hz, ?_⟩) fun _ => id
          refine hsame z ?_
          rintro rfl
          cases hp.symm.trans hz
          omega
        · intro b y hb hdisturbs
          refine hspare p c hp hzero hlo hhi b y hb
            ⟨leaf, leaf', hleaf, hleaf'.trans hremove.symm, hlt, ?_⟩
          have hpages : s.pages = Function.update t.pages p (some (.leaf leaf')) := by
            funext y
            by_cases hy : y = p
            · rw [hy, Function.update_self, hpage']
            · rw [Function.update_of_ne hy, hsame y hy]
          exact hpages ▸ hdisturbs
        · have hheight := h'.height
          omega
        · intro b s' hs'
          rw [wp_pure]
          exact hs'
      · intro hge
        rw [wp_pure]
        refine (h'.narrow fun y hy => Or.inr fun _ page _ hpage => ?_).ending
          (hset ▸ hpath.nodup) (.refl hA)
        rw [List.mem_singleton] at hy
        subst hy
        cases hpage'.symm.trans hpage
        refine sizeOk_of_header (.leaf leaf) hheader rfl ?_ ?_
        · simp only [TreePage.getSize]
          omega
        · simp only [TreePage.getSize]
          omega
    have hid : (TreePage.leaf leaf' : TreePage K V).getPageId = p := by
      obtain ⟨page, hpage, hok⟩ := hs.shape.page hp
      cases hleaf.symm.trans hpage
      rw [hleaf']
      exact hok.pageId
    have hup : Neutral (if leaf'.array.length < (TreePage.leaf leaf' : TreePage K V).getMinSize
        then do
          let t ← get
          let _ ← coalesceOrRedistributeWith share ω.toIndexParams true t.nextPageId.toNat p
          pure ()
        else pure ()) := by
      refine Neutral.ite (Neutral.get.bind fun t => ?_) (Neutral.pure ())
      exact (neutral_coalesceOrRedistributeWith _ hneutral _ _).bind fun _ => Neutral.pure ()
    refine wp_mono (wp_and_wlp (hrest _ ?_ ?_ rfl ?_ rfl) (hup.carries _)) ?_
    · rw [hleaf']
      exact hs.storeLeaf hp hleaf hl (hs.removed_iff hp hleaf hlo hhi hmem) rfl rfl rfl rfl hdel
    · exact Function.update_self _ _ _
    · exact fun y hy => Function.update_of_ne hy _ _
    · rintro _ s' ⟨hs', hs'carry⟩
      refine wp_release_settled hs' (fun y => hs.shape.inTree_iff.mp) hset₀ ?_
        fun t' ht' hsettled hremains => ⟨ht', hsettled, hremains⟩
      exact fun hcount => ((hcarry hcount).trans (.store hid)).trans (hs'carry hs'.nodup)

theorem wp_removeWith [DecidableEq K] {share : PageId → PageId → Int → TreeM K V Unit}
    (hshare : LikeRedistribute ω share)
    (hneutral : ∀ neighbor node index, Neutral (share neighbor node index))
    (h : Represents ω R m t) (hkey : key ∈ ω.keys) :
    wp (removeWith share ω.toIndexParams key true) (fun _ t' =>
      Represents ω R (Function.update m key none) t' ∧ (Quiet t → Settled t t')) t := by
  rcases h.tree with ⟨hempty, hm⟩ | ⟨G, H, hs⟩
  · simp only [removeWith, wp_bind, wp_getRootPageId]
    rw [if_pos hempty, wp_pure]
    have hsame : Function.update m key none = m := by
      rw [Function.update_eq_self_iff, hm]
    rw [hsame]
    exact ⟨h, fun hquiet => .of_carries (fun _ _ _ _ hn ht => ⟨hn, ht⟩) hquiet h.pageSet h.pageSet
      hquiet.unlocked fun _ hy => hy⟩
  · refine wp_mono (hs.wp_removeWith (A := ∅) hshare hneutral h.pageSet h.deletedPageSet hkey
      ?_ ?_) fun _ t' hpost => ⟨hpost.1, hpost.2.1⟩
    · exact fun _ _ hnot => absurd hnot (Set.notMem_empty _)
    · exact fun _ _ _ _ _ _ _ _ hnot => absurd hnot (Set.notMem_empty _)

/-- `Remove` takes the key out of the map. -/
theorem wp_remove [DecidableEq K] (h : Represents ω R m t) (hkey : key ∈ ω.keys) :
    wp (remove ω.toIndexParams key true) (fun _ t' =>
      Represents ω R (Function.update m key none) t' ∧ (Quiet t → Settled t t')) t := by
  rw [← removeWith_redistribute]
  exact wp_removeWith (likeRedistribute_redistribute ω) neutral_redistribute h hkey

end Operation

end BPlusTree

end ScuDb
