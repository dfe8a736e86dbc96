import ScuDb.Index.Latching
import ScuDb.Index.Moving

/-!
Pages with too few entries: merging, redistribution, and the root.

After a removal one page may have one entry too few. Its sibling either
takes it over, and then the parent may have too few children, or gives it
one entry. `wp_coalesceOrRedistributeWith` follows this up to the root.

Pages taken out of the tree are deleted when the page set is released,
so they have to be in that set.
-/

namespace ScuDb

open Foundations

variable {K V B : Type} [LinearOrder B] [BoundedOrder B]

/-- The key is not above `b`. -/
def OrderedIndex.UpTo (ω : OrderedIndex K B) (b : B) (k : K) : Prop :=
  k ∈ ω.keys ∧ ω.rank k ≤ b

namespace BPlusTree

/-- A page with at most one entry less than it may have. Only for an
internal page is the least legal number of entries reason to act. -/
structure Underfull (page : TreePage K V) : Prop where
  le : page.getSize ≤ page.getMinSize
  ge : page.getMinSize ≤ page.getSize + 1
  leaf : page.isLeafPage = true → page.getSize < page.getMinSize

/-- A page that may have too few children once it has lost one is not safe. -/
theorem not_isSafe_internal {q : InternalPage K}
    (hsize : q.array.length ≤ (TreePage.internal q : TreePage K V).getMinSize + 1) :
    (TreePage.internal q : TreePage K V).isSafe .delete ≠ .ok true := by
  intro hsafe
  simp only [TreePage.isSafe, TreePage.isLeafPage, TreePage.getSize, Bool.false_eq_true,
    if_false, Except.ok.injEq] at hsafe
  exact absurd hsize (not_le.mpr (of_decide_eq_true hsafe))

theorem not_isSafe_leaf {leaf : LeafPage K V}
    (hsize : leaf.array.length ≤ (TreePage.leaf leaf : TreePage K V).getMinSize) :
    (TreePage.leaf leaf : TreePage K V).isSafe .delete ≠ .ok true := by
  intro hsafe
  simp only [TreePage.isSafe, TreePage.isLeafPage, TreePage.getSize, if_true,
    Except.ok.injEq] at hsafe
  exact absurd hsize (not_le.mpr (of_decide_eq_true hsafe))

/-- Balancing the leaf `x` disturbs a leaf: that is the right one of `x`
and the sibling it is balanced with, and it is merged into the left one or
gets an entry from there whose key is `low`. -/
inductive Disturbs (pages : Pages K V) (low : K → Prop) (x : PageId) : PageId → Prop
  | mergesNext {page sibling : LeafPage K V} {q : InternalPage K} {y : PageId}
      (hx : pages x = some (.leaf page)) (hq : pages page.parentPageId = some (.internal q))
      (hindex : q.valueIndex x = 0) (hy : q.valueAt (q.valueIndex x + 1) = .ok y)
      (hsibling : pages y = some (.leaf sibling))
      (hfit : page.array.length + sibling.array.length ≤ page.maxSize) : Disturbs pages low x y
  | merged {page sibling : LeafPage K V} {q : InternalPage K} {l : PageId}
      (hx : pages x = some (.leaf page)) (hq : pages page.parentPageId = some (.internal q))
      (hindex : q.valueIndex x ≠ 0) (hl : q.valueAt (q.valueIndex x - 1) = .ok l)
      (hsibling : pages l = some (.leaf sibling))
      (hfit : page.array.length + sibling.array.length ≤ page.maxSize) : Disturbs pages low x x
  | borrows {page sibling : LeafPage K V} {q : InternalPage K} {l : PageId} {e : K × V}
      (hx : pages x = some (.leaf page)) (hq : pages page.parentPageId = some (.internal q))
      (hindex : q.valueIndex x ≠ 0) (hl : q.valueAt (q.valueIndex x - 1) = .ok l)
      (hsibling : pages l = some (.leaf sibling))
      (hbig : page.maxSize < page.array.length + sibling.array.length)
      (he : sibling.array.getLast? = some e) (hlow : low e.1) : Disturbs pages low x x

omit [LinearOrder B] [BoundedOrder B] in
theorem Disturbs.mono {pages : Pages K V} {low low' : K → Prop} {x y : PageId}
    (h : Disturbs pages low x y) (hlow : ∀ k, low k → low' k) : Disturbs pages low' x y := by
  cases h with
  | mergesNext hx hq hindex hy hsibling hfit => exact .mergesNext hx hq hindex hy hsibling hfit
  | merged hx hq hindex hl hsibling hfit => exact .merged hx hq hindex hl hsibling hfit
  | borrows hx hq hindex hl hsibling hbig he hk =>
      exact .borrows hx hq hindex hl hsibling hbig he (hlow _ hk)

/-! ### Two siblings -/

namespace Neighbours

variable {ω : OrderedIndex K B} {pages : Pages K V} {G : Cells B} {root : PageId} {H : Nat}
  {cut : Regroup K} {d : Cell B} {q : InternalPage K}

/-- From the height of the regrouped page on, nothing changes place, ... -/
theorem cells_of_height (h : Neighbours ω pages G root H cut d q) {y : PageId} {c : Cell B}
    (hy : G y = some c) (hheight : d.height ≤ c.height) : cut.cells ω.rank d G y = some c := by
  have hpos := h.parent_height
  rw [cells_same, hy]
  · rintro rfl
    cases h.left_mem.symm.trans hy
    simp only [Regroup.leftCell] at hheight
    omega
  · rintro rfl
    obtain ⟨s, -, rfl⟩ := h.right_cell hy
    simp only [Regroup.rightCell] at hheight
    omega
  · intro hmoved
    obtain ⟨e, he, hparent⟩ := h.moved _ hmoved
    cases hy.symm.trans he
    have := (h.grandchild_height hy hparent).2
    omega

/-- ... and nothing is new there. -/
theorem of_cells_of_height (h : Neighbours ω pages G root H cut d q) {y : PageId} {c : Cell B}
    (hy : cut.cells ω.rank d G y = some c) (hheight : d.height ≤ c.height) : G y = some c := by
  have hpos := h.parent_height
  rcases h.cells_cases hy with ⟨-, rfl⟩ | ⟨s, -, -, rfl⟩ | ⟨-, -, e, he, ⟨hm, rfl⟩ | ⟨-, rfl⟩⟩
  · simp only [Regroup.leftCell] at hheight
    omega
  · simp only [Regroup.rightCell] at hheight
    omega
  · obtain ⟨e', he', hparent⟩ := h.moved _ hm
    cases he.symm.trans he'
    have hlow := (h.grandchild_height he hparent).2
    simp only at hheight
    omega
  · exact he

theorem cells_none (h : Neighbours ω pages G root H cut d q) {y : PageId} (hy : G y = none)
    (hr : y ≠ cut.right) : cut.cells ω.rank d G y = none := by
  have hl : y ≠ cut.left := by
    rintro rfl
    rw [h.left_mem] at hy
    cases hy
  by_cases hm : y ∈ cut.moved
  · rw [h.cells_moved hm, hy]
    rfl
  · rw [cells_same hl hr hm, hy]

end Neighbours

section Siblings

variable {ω : OrderedIndex K B} {R : Prop} {m : K → Option V} {t t' : BPlusTree K V}
  {G S : Cells B} {A : Set (B × PageId)} {H : Nat} {x : List PageId} {p : PageId}
  {before : List (K × PageId)} {k : K} {l : PageId} {s : K} {r : PageId} {after : List (K × PageId)}
  {d : Cell B}
  {q : InternalPage K} {pl pr : TreePage K V}

namespace Pair

theorem bounds (h : Pair ω t.pages G t.rootPageId H p before k l s r after d q pl pr) :
    5 ≤ pl.getMaxSize ∧ pr.getMaxSize = pl.getMaxSize ∧
      pl.getMinSize = pl.getMaxSize / 2 ∧ pr.getMinSize = pl.getMaxSize / 2 := by
  obtain ⟨cl, hcl, hpl, -⟩ := h.left_cell
  obtain ⟨cr, hcr, hpr, -⟩ := h.right_cell
  obtain ⟨page, hpage, hokl⟩ := h.shape.page hcl
  cases h.left.symm.trans hpage
  obtain ⟨page, hpage, hokr⟩ := h.shape.page hcr
  cases h.right.symm.trans hpage
  have hkind : pl.isLeafPage = pr.isLeafPage := h.sameKind
  have hmaxl := hokl.getMaxSize_eq
  have hmaxr : pr.getMaxSize = pl.getMaxSize := by rw [hokr.getMaxSize_eq, hmaxl, hkind]
  have hnotroot : ∀ {y : PageId} {c : Cell B} {page : TreePage K V}, G y = some c →
      c.parent = p → t.pages y = some page → page.isRootPage = false := by
    intro y c page hy hparent hpage
    rw [Bool.eq_false_iff]
    exact fun htrue => h.shape.ne_root_of_parent h.parent hy hparent
      ((h.shape.isRootPage_iff hy hpage).mp htrue)
  have hfive := LeafPage.five_le_initMaxSize ω.keySize
  have hsix := InternalPage.six_le_initMaxSize ω.keySize
  refine ⟨?_, hmaxr, ?_, ?_⟩
  · rw [hmaxl]
    split <;> omega
  · exact getMinSize_of_not_root (hnotroot hcl hpl h.left)
  · rw [getMinSize_of_not_root (hnotroot hcr hpr h.right), hmaxr]

theorem leaves (h : Pair ω t.pages G t.rootPageId H p before k l s r after d q pl pr) {c : Cell B}
    (hc : G r = some c) (hzero : c.height = 0) : ∃ L R, pl = .leaf L ∧ pr = .leaf R ∧
      L.parentPageId = p ∧ R.parentPageId = p ∧ LeafOk ω G c R := by
  obtain ⟨cl, hcl, hpl, -⟩ := h.left_cell
  obtain ⟨cr, hcr, hpr, -⟩ := h.right_cell
  cases hc.symm.trans hcr
  obtain ⟨page, hpage, hokl⟩ := h.shape.page hcl
  cases h.left.symm.trans hpage
  obtain ⟨page, hpage, hokr⟩ := h.shape.page hcr
  cases h.right.symm.trans hpage
  have hkind := h.sameKind
  cases pr with
  | internal R =>
      have hpos := (h.shape.internalOk hcr h.right).height
      omega
  | leaf R =>
      cases pl with
      | internal L => cases hkind
      | leaf L =>
          exact ⟨L, R, rfl, rfl, hokl.parent.trans hpl, hokr.parent.trans hpr,
            h.shape.leafOk hcr h.right⟩

/-- A marked leaf that balancing `x` does not disturb is not merged into
its left neighbour. -/
theorem not_marked (h : Pair ω t.pages G t.rootPageId H p before k l s r after d q pl pr)
    {deleted : List PageId} (hS : Outlived S A G deleted) {y : PageId}
    (hy : y = l ∧ before = [] ∨ y = r)
    (hspare : ∀ b, (b, r) ∈ A → ¬Disturbs t.pages (ω.UpTo b) y r)
    (hfit : pl.getSize + pr.getSize ≤ pl.getMaxSize) (b : B) : (b, r) ∉ A := by
  intro hb
  obtain ⟨c, hc, hzero, -⟩ := hS.marks b r hb
  obtain ⟨hfive, hmax, -⟩ := h.bounds
  obtain ⟨L, R, rfl, rfl, hL, hR, -⟩ := h.leaves hc hzero
  simp only [TreePage.getSize, TreePage.getMaxSize, TreePage.header] at hfit hmax
  apply hspare b hb
  rcases hy with ⟨rfl, rfl⟩ | rfl
  · refine .mergesNext h.left (hL ▸ h.page) h.valueIndex_left ?_ h.right hfit
    rw [h.valueIndex_left]
    exact InternalPage.valueAt_eq h.right_slot.1
  · refine .merged h.right (hR ▸ h.page) ?_ ?_ h.left (by omega)
    · rw [h.valueIndex_right]
      omega
    · rw [h.valueIndex_right, Int.add_sub_cancel]
      exact InternalPage.valueAt_eq h.array

/-- What such a leaf gets from its left neighbour is above its marks. -/
theorem lt_of_borrows (h : Pair ω t.pages G t.rootPageId H p before k l s r after d q pl pr)
    {deleted : List PageId} (hS : Outlived S A G deleted)
    (hspare : ∀ b, (b, r) ∈ A → ¬Disturbs t.pages (ω.UpTo b) r r)
    (hbig : pr.getMaxSize < pr.getSize + pl.getSize) {b : B} (hb : (b, r) ∈ A) {e : K × V}
    (he : (entries (some pl)).getLast? = some e) : b < ω.rank e.1 := by
  obtain ⟨c, hc, hzero, -⟩ := hS.marks b r hb
  obtain ⟨L, R, rfl, rfl, hL, hR, -⟩ := h.leaves hc hzero
  simp only [TreePage.getSize, TreePage.getMaxSize, TreePage.header] at hbig
  obtain ⟨cl, hcl, -⟩ := h.left_cell
  have hkey := ((h.shape.leafOk hcl h.left).entries.mem e (List.mem_of_getLast? he)).1
  rw [← not_le]
  intro hle
  apply hspare b hb
  refine .borrows h.right (hR ▸ h.page) ?_ ?_ h.left hbig he ⟨hkey, hle⟩
  · rw [h.valueIndex_right]
    omega
  · rw [h.valueIndex_right, Int.add_sub_cancel]
    exact InternalPage.valueAt_eq h.array

end Pair

theorem sizeOk_of_header {page : TreePage K V} (old : TreePage K V)
    (hheader : page.header = old.header)
    (hkind : page.isLeafPage = old.isLeafPage) (hmin : old.getMinSize ≤ page.getSize)
    (hmax : page.getSize ≤ old.getMaxSize) : SizeOk page := by
  unfold SizeOk
  have hmax' : page.getMaxSize = old.getMaxSize := by simp [TreePage.getMaxSize, hheader]
  have hmin' : page.getMinSize = old.getMinSize := by
    simp [TreePage.getMinSize, TreePage.isRootPage, hheader, hkind, hmax']
  rw [hmax', hmin']
  exact ⟨hmin, hmax⟩

theorem isLeafPage_merged : (mergedPage pl pr).isLeafPage = pl.isLeafPage := by
  cases pl <;> cases pr <;> rfl

theorem isLeafPage_leftShare {n : Nat} : (leftShare n pl pr).isLeafPage = pl.isLeafPage := by
  cases pl <;> cases pr <;> rfl

theorem isLeafPage_rightShare {n : Nat} : (rightShare n pl pr).isLeafPage = pr.isLeafPage := by
  cases pl <;> cases pr <;> rfl

/-- A merge leaves a standing tree in which the parent has a child less,
and the right page is gone. -/
theorem Standing.merge (h : Standing ω R m t G H x)
    (pair : Pair ω t.pages G t.rootPageId H p before k l s r after d q pl pr)
    (hx : ∀ y ∈ x, y = l ∨ y = r) (hfit : pl.getSize + pr.getSize ≤ pl.getMaxSize)
    (hmin : pl.getMinSize ≤ pl.getSize + pr.getSize)
    (hp : t'.pages p = some (.internal { q with array := before ++ (k, l) :: after }))
    (hl : t'.pages l = some (mergedPage pl pr))
    (hm : ∀ y ∈ childIds pr, t'.pages y = (t.pages y).map (·.setParentPageId l))
    (hsame : ∀ y, y ≠ p → y ≠ l → y ≠ r → y ∉ childIds pr → t'.pages y = t.pages y)
    (hroot : t'.rootPageId = t.rootPageId) (hheader : t'.headerPage = t.headerPage)
    (hnext : t'.nextPageId = t.nextPageId) (hset : r ∈ t'.pageSet)
    (hdel : ∀ y ∈ t'.deletedPageSet, y = r ∨ y ∈ t'.pageSet ∧ G y = none) :
    ∃ G' : Cells B, Standing ω R m t' G' H [p] ∧
      (∀ y c, d.height ≤ c.height → (G' y = some c ↔ G y = some c)) ∧
      ∀ y e, G y = some e → y ≠ r →
        ∃ e', G' y = some e' ∧ e'.height = e.height ∧ e'.lo = e.lo := by
  have hcut := pair.merge hp hl hm fun y e _ => hsame y
  have hkind := pair.sameKind
  have hr : G r ≠ none := by
    obtain ⟨c, hc, -⟩ := pair.right_cell
    simp [hc]
  refine ⟨_, h.regroup hcut ?_ ?_ ?_ ?_ hroot hheader hnext.ge ?_ ?_, ?_, ?_⟩
  · intro y hy
    rcases hx y hy with rfl | rfl <;> simp [pairCut]
  · intro page hpage
    cases hl.symm.trans hpage
    refine sizeOk_of_header pl header_merged isLeafPage_merged ?_ ?_
    · rw [getSize_merged hkind]
      exact hmin
    · rw [getSize_merged hkind]
      exact hfit
  · intro s' hs'
    cases hs'
  · intro e
    change e ∈ entries (t'.pages l) ∨ (none : Option K) ≠ none ∧ e ∈ entries (t'.pages r) ↔
      e ∈ entries (t.pages l) ∨ some s ≠ none ∧ e ∈ entries (t.pages r)
    rw [hl, pair.left, pair.right, mem_entries_merged hkind]
    simp
  · obtain ⟨c, hc, -⟩ := pair.right_cell
    rw [hnext]
    exact h.fresh _ _ hc
  · intro y hy
    rcases hdel y hy with rfl | ⟨hmem, hnone⟩
    · exact ⟨hset, hcut.cells_right⟩
    · refine ⟨hmem, hcut.cells_none hnone ?_⟩
      rintro rfl
      exact hr hnone
  · exact fun y c hheight => ⟨fun hy => hcut.of_cells_of_height hy hheight,
      fun hy => hcut.cells_of_height hy hheight⟩
  · exact fun y e hy hne => hcut.cells_of_ne_right hy hne

/-- A redistribution leaves a standing tree. Of the leaves only the right
one may start somewhere else. -/
theorem Standing.share (h : Standing ω R m t G H x)
    (pair : Pair ω t.pages G t.rootPageId H p before k l s r after d q pl pr)
    (hx : ∀ y ∈ x, y = l ∨ y = r) {n : Nat} {moved : List PageId} {target : PageId}
    (hshared : pair.Shared n moved target t'.pages) (hn : 0 < n)
    (hmoved : ∀ y ∈ moved, y ∈ childIds pl ∨ y ∈ childIds pr)
    (hpl : ∀ y ∈ (childIds pl ++ childIds pr).take n,
      y ∈ moved ∧ target = l ∨ y ∉ moved ∧ y ∈ childIds pl)
    (hpr : ∀ y ∈ (childIds pl ++ childIds pr).drop n,
      y ∈ moved ∧ target = r ∨ y ∉ moved ∧ y ∈ childIds pr)
    (hminl : pl.getMinSize ≤ n) (hmaxl : n ≤ pl.getMaxSize)
    (hminr : pr.getMinSize + n ≤ pl.getSize + pr.getSize)
    (hmaxr : pl.getSize + pr.getSize ≤ pr.getMaxSize + n)
    (hroot : t'.rootPageId = t.rootPageId) (hheader : t'.headerPage = t.headerPage)
    (hnext : t'.nextPageId = t.nextPageId)
    (hdel : ∀ y ∈ t'.deletedPageSet, y ∈ t'.pageSet ∧ G y = none)
    (hS : Outlived S A G t'.deletedPageSet)
    (hA : ∀ b s', (b, r) ∈ A → firstKey (rightShare n pl pr) = some s' → b < ω.rank s') :
    StandsWith S A ω R m t' := by
  obtain ⟨s', hkey, hp⟩ := hshared.separator
  have hcut := pair.share hkey hn hmoved hpl hpr hp hshared.left hshared.right hshared.moved
    fun y e _ => hshared.same y
  have hkind := pair.sameKind
  obtain ⟨cr, hcr, -, hheight⟩ := pair.right_cell
  have hpx : p ∉ x := by
    intro hmem
    rcases hx p hmem with rfl | rfl
    · exact pair.parent_ne.1 rfl
    · exact pair.parent_ne.2 rfl
  obtain ⟨G', hstands, hkept⟩ : ∃ G' : Cells B, Standing ω R m t' G' H [p] ∧
      Outlived S A G' t'.deletedPageSet := by
    refine ⟨_, h.regroup hcut ?_ ?_ ?_ ?_ hroot hheader hnext.ge ?_ ?_,
      hS.next (r := r) (fun y e hy hne => hcut.cells_of_ne_right hy hne) (fun hy => Or.inl ?_)
        (fun _ => id) fun b hb => ?_⟩
    · intro y hy
      rcases hx y hy with rfl | rfl <;> simp [pairCut]
    · intro page hpage
      cases hshared.left.symm.trans hpage
      have hsize : (leftShare n pl pr).getSize = n := getSize_leftShare hkind (by omega)
      refine sizeOk_of_header pl header_leftShare isLeafPage_leftShare ?_ ?_
      · rw [hsize]
        exact hminl
      · rw [hsize]
        exact hmaxl
    · intro _ _ page hpage
      cases hshared.right.symm.trans hpage
      have hsize : (rightShare n pl pr).getSize = pl.getSize + pr.getSize - n :=
        getSize_rightShare hkind
      refine sizeOk_of_header pr header_rightShare isLeafPage_rightShare ?_ ?_ <;>
        rw [hsize] <;> omega
    · intro e
      change e ∈ entries (t'.pages l) ∨ some s' ≠ none ∧ e ∈ entries (t'.pages r) ↔
        e ∈ entries (t.pages l) ∨ some s ≠ none ∧ e ∈ entries (t.pages r)
      rw [hshared.left, hshared.right, pair.left, pair.right]
      simpa using mem_entries_shares hkind n e
    · rw [hnext]
      exact h.fresh _ _ hcr
    · intro y hy
      obtain ⟨hmem, hnone⟩ := hdel y hy
      refine ⟨hmem, hcut.cells_none hnone ?_⟩
      intro heq
      rw [show y = r from heq, hcr] at hnone
      cases hnone
    · exact hcut.cells_ne_none hy fun _ => Option.some_ne_none s'
    · obtain ⟨c, hc, hzero, -⟩ := hS.marks b r hb
      cases hcr.symm.trans hc
      exact ⟨_, hcut.cells_right, by simp only [Regroup.rightCell]; omega, hA b s' hb hkey⟩
  -- the parent has as many children as before
  refine ⟨G', H, hstands.narrow fun y hy => Or.inr fun _ page _ hpage => ?_, hkept⟩
  rw [List.mem_singleton] at hy
  subst hy
  cases hp.symm.trans hpage
  have hsize := h.sized _ _ _ pair.parent hpx pair.page
  have hlen : (before ++ (k, l) :: (s', r) :: after).length = q.array.length := by
    rw [pair.array]
    simp
  refine sizeOk_of_header (.internal q) rfl rfl ?_ ?_
  · simpa only [TreePage.getSize, hlen] using hsize.1
  · simpa only [TreePage.getSize, hlen] using hsize.2

end Siblings

end BPlusTree

end ScuDb
