import ScuDb.Index.Root
import ScuDb.Index.Sharing
import ScuDb.Index.Standing

/-!
What a change of the structure of a tree leaves as it is: the sizes of
the pages it does not touch, and the map the tree holds.
-/

namespace ScuDb

open Foundations

variable {K V B : Type} [LinearOrder B] [BoundedOrder B]

namespace BPlusTree

theorem SizeOk.setParentPageId {page : TreePage K V} (h : SizeOk page) {parent : PageId}
    (hold : page.isRootPage = false) (hnew : parent ≠ invalidPageId) :
    SizeOk (page.setParentPageId parent) := by
  have hnew' : (page.setParentPageId parent).isRootPage = false := by
    simpa [TreePage.isRootPage] using hnew
  have hmax : (page.setParentPageId parent).getMaxSize = page.getMaxSize := by
    simp [TreePage.getMaxSize]
  unfold SizeOk at h ⊢
  rw [getSize_setParentPageId, hmax]
  simp only [TreePage.getMinSize, hold, hnew', hmax] at h ⊢
  exact h

theorem getMinSize_of_not_root {page : TreePage K V} (h : page.isRootPage = false) :
    page.getMinSize = page.getMaxSize / 2 := by
  simp [TreePage.getMinSize, h]

namespace Regroups

variable {ω : OrderedIndex K B} {pages pages' : Pages K V} {G : Cells B} {root : PageId}
  {H : Nat} {cut : Regroup K} {d : Cell B} {q : InternalPage K}

theorem target_ne (h : Regroups ω pages pages' G root H cut d q) {y : PageId}
    (hy : y ∈ cut.moved) : cut.target ≠ invalidPageId := by
  obtain ⟨c, hc, hparent⟩ := h.moved y hy
  obtain ⟨e, -, he, -⟩ := h.grandchildren y c hc hparent
  simp only [Regroup.newParent, hy, if_true] at he
  have hpos := h.shape'.positive he
  intro heq
  rw [heq] at hpos
  exact absurd hpos (by decide)

theorem sized (h : Regroups ω pages pages' G root H cut d q)
    (hs : Sized pages G [cut.parent, cut.left, cut.right])
    (hl : ∀ page, pages' cut.left = some page → SizeOk page)
    (hr : ∀ s ∈ cut.new, ∀ page, pages' cut.right = some page → SizeOk page) :
    Sized pages' (cut.cells ω.rank d G) [cut.parent] := by
  intro y c' page hy hyp hpage
  rcases h.cells_cases hy with ⟨rfl, -⟩ | ⟨s, hs, rfl, -⟩ | ⟨hyl, hyr, c, hc, hmove⟩
  · exact hl page hpage
  · exact hr s hs page hpage
  · rw [List.mem_singleton] at hyp
    have hout : y ∉ [cut.parent, cut.left, cut.right] := by simp [hyp, hyl, hyr]
    obtain ⟨old, hold, -⟩ := h.shape.page hc
    have hsize := hs y c old hc hout hold
    rcases hmove with ⟨hm, -⟩ | ⟨hm, -⟩
    · have hroot : y ≠ root := fun heq => h.root_ne.2.2 (heq ▸ hm)
      rw [h.moved' y hm, hold, Option.map_some, Option.some_inj] at hpage
      rw [← hpage]
      refine hsize.setParentPageId ?_ (h.target_ne hm)
      rw [Bool.eq_false_iff]
      exact fun hisroot => hroot ((h.shape.isRootPage_iff hc hold).mp hisroot)
    · rw [h.same y c hc hyp hyl hyr hm, hold, Option.some_inj] at hpage
      exact hpage ▸ hsize

/-- Regrouping keeps the map, when the two pages together keep their entries. -/
theorem holds_iff (h : Regroups ω pages pages' G root H cut d q)
    (hentries : ∀ e, e ∈ entries (pages' cut.left) ∨
        cut.new ≠ none ∧ e ∈ entries (pages' cut.right) ↔
      e ∈ entries (pages cut.left) ∨ cut.old ≠ none ∧ e ∈ entries (pages cut.right))
    (k : K) (v : V) :
    Holds pages' (cut.cells ω.rank d G) k v ↔ Holds pages G k v := by
  have hother : ∀ {y c}, G y = some c → y ≠ cut.left → y ≠ cut.right →
      entries (pages' y) = entries (pages y) := by
    intro y c hy hl hr
    by_cases hp : y = cut.parent
    · rw [hp, h.parent', h.page, entries_internal, entries_internal]
    · by_cases hm : y ∈ cut.moved
      · rw [h.moved' y hm, entries_setParentPageId]
      · rw [h.same y c hy hp hl hr hm]
  constructor
  · rintro ⟨y, c', hy, hmem⟩
    have hpair : (k, v) ∈ entries (pages cut.left) ∨
        cut.old ≠ none ∧ (k, v) ∈ entries (pages cut.right) → Holds pages G k v := by
      rintro (hmem | ⟨hold, hmem⟩)
      · exact ⟨cut.left, _, h.left_mem, hmem⟩
      · obtain ⟨s, hs⟩ := Option.ne_none_iff_exists'.mp hold
        exact ⟨cut.right, _, h.right_mem hs, hmem⟩
    rcases h.cells_cases hy with ⟨rfl, -⟩ | ⟨s, hs, rfl, -⟩ | ⟨hl, hr, c, hc, -⟩
    · exact hpair ((hentries _).mp (Or.inl hmem))
    · refine hpair ((hentries _).mp (Or.inr ⟨?_, hmem⟩))
      rw [Option.mem_def] at hs
      simp [hs]
    · rw [hother hc hl hr] at hmem
      exact ⟨y, c, hc, hmem⟩
  · rintro ⟨y, c, hy, hmem⟩
    have hpair : (k, v) ∈ entries (pages cut.left) ∨
        cut.old ≠ none ∧ (k, v) ∈ entries (pages cut.right) →
        Holds pages' (cut.cells ω.rank d G) k v := by
      intro hor
      rcases (hentries _).mpr hor with hmem | ⟨hnew, hmem⟩
      · exact ⟨cut.left, _, Neighbours.cells_left, hmem⟩
      · obtain ⟨s, hs⟩ := Option.ne_none_iff_exists'.mp hnew
        exact ⟨cut.right, _, by rw [h.cells_right, hs]; rfl, hmem⟩
    by_cases hl : y = cut.left
    · exact hpair (Or.inl (hl ▸ hmem))
    · by_cases hr : y = cut.right
      · refine hpair (Or.inr ⟨?_, hr ▸ hmem⟩)
        intro hold
        rw [hr, h.fresh hold] at hy
        cases hy
      · obtain ⟨c', hc', -⟩ := h.cells_of_ne_right hy hr
        refine ⟨y, c', hc', ?_⟩
        rw [hother hy hl hr]
        exact hmem

end Regroups

namespace Standing

variable {ω : OrderedIndex K B} {R : Prop} {m : K → Option V} {t t' : BPlusTree K V}
  {G : Cells B} {H : Nat} {x : List PageId} {cut : Regroup K} {d : Cell B} {q : InternalPage K}

/-- Regrouping leaves a standing tree; only the size of the parent has
still to be looked at. -/
theorem regroup (h : Standing ω R m t G H x)
    (hr : Regroups ω t.pages t'.pages G t.rootPageId H cut d q)
    (hx : ∀ y ∈ x, y ∈ [cut.parent, cut.left, cut.right])
    (hleft : ∀ page, t'.pages cut.left = some page → SizeOk page)
    (hright : ∀ s ∈ cut.new, ∀ page, t'.pages cut.right = some page → SizeOk page)
    (hentries : ∀ e, e ∈ entries (t'.pages cut.left) ∨
        cut.new ≠ none ∧ e ∈ entries (t'.pages cut.right) ↔
      e ∈ entries (t.pages cut.left) ∨ cut.old ≠ none ∧ e ∈ entries (t.pages cut.right))
    (hroot : t'.rootPageId = t.rootPageId) (hheader : t'.headerPage = t.headerPage)
    (hnext : t.nextPageId ≤ t'.nextPageId) (hfresh : cut.right < t'.nextPageId)
    (hdel : ∀ y ∈ t'.deletedPageSet, y ∈ t'.pageSet ∧ cut.cells ω.rank d G y = none) :
    Standing ω R m t' (cut.cells ω.rank d G) H [cut.parent] where
  shape := hroot ▸ hr.shape'
  sized := hr.sized (fun y c page hy hout hpage =>
    h.sized y c page hy (fun hmem => hout (hx y hmem)) hpage) hleft hright
  holds k v := by rw [h.holds, hr.holds_iff hentries]
  fresh y c hy := by
    rcases hr.cells_cases hy with ⟨rfl, -⟩ | ⟨-, -, rfl, -⟩ | ⟨-, -, e, he, -⟩
    · exact lt_of_lt_of_le (h.fresh _ _ hr.left_mem) hnext
    · exact hfresh
    · exact lt_of_lt_of_le (h.fresh _ _ he) hnext
  height := lt_of_lt_of_le h.height (Int.toNat_le_toNat hnext)
  header := by
    unfold HeaderOk
    rw [hheader, hroot]
    exact h.header
  deleted := hdel

theorem narrow (h : Standing ω R m t G H x) {x' : List PageId}
    (hx : ∀ y ∈ x, y ∈ x' ∨ ∀ c page, G y = some c → t.pages y = some page → SizeOk page) :
    Standing ω R m t G H x' where
  shape := h.shape
  sized y c page hy hout hpage := by
    by_cases hmem : y ∈ x
    · rcases hx y hmem with hx' | hok
      · exact absurd hx' hout
      · exact hok c page hy hpage
    · exact h.sized y c page hy hmem hpage
  holds := h.holds
  fresh := h.fresh
  height := h.height
  header := h.header
  deleted := h.deleted

/-- A new root above the old one; the sizes of both are still to be
looked at. -/
theorem grow (h : Standing ω R m t G H x) {n : PageId} (hn : G n = none) (hpos : 0 < n) {k : K}
    (hpage : t'.pages n = some (.internal
      ⟨⟨n, invalidPageId, InternalPage.initMaxSize ω.keySize⟩, [(k, t.rootPageId)]⟩))
    (hold : t'.pages t.rootPageId = (t.pages t.rootPageId).map (·.setParentPageId n))
    (hsame : ∀ y c, G y = some c → y ≠ t.rootPageId → t'.pages y = t.pages y)
    (hroot : t'.rootPageId = n) (hheader : HeaderOk ω.toIndexParams R t')
    (hnext : n < t'.nextPageId) (hle : t.nextPageId < t'.nextPageId)
    (hdel : t'.deletedPageSet = []) :
    Standing ω R m t' (growCells G t.rootPageId n H) (H + 1) (n :: t.rootPageId :: x) := by
  have hcases : ∀ {y c}, growCells G t.rootPageId n H y = some c →
      y = n ∨ y = t.rootPageId ∨ y ≠ t.rootPageId ∧ y ≠ n ∧ G y = some c := by
    intro y c hy
    by_cases hyn : y = n
    · exact Or.inl hyn
    · by_cases hyr : y = t.rootPageId
      · exact Or.inr (Or.inl hyr)
      · simp only [growCells, hyn, hyr, if_false] at hy
        exact Or.inr (Or.inr ⟨hyr, hyn, hy⟩)
  have hnr : t.rootPageId ≠ n := by
    rintro rfl
    rw [h.shape.top] at hn
    cases hn
  have hshape := h.shape.grow hn hpos hpage hold hsame
  refine ⟨hroot.symm ▸ hshape, ?_, ?_, ?_, ?_, hheader, ?_⟩
  · intro y c page hy hout hpage'
    simp only [List.mem_cons, not_or] at hout
    rcases hcases hy with rfl | rfl | ⟨hyr, -, hy⟩
    · exact absurd rfl hout.1
    · exact absurd rfl hout.2.1
    · exact h.sized y c page hy hout.2.2 ((hsame y c hy hyr).symm.trans hpage')
  · intro k' v
    rw [h.holds]
    constructor
    · rintro ⟨y, c, hy, hmem⟩
      by_cases hyr : y = t.rootPageId
      · subst hyr
        refine ⟨t.rootPageId, ⟨H, ⊥, ⊤, n⟩, by simp [growCells, hnr], ?_⟩
        rw [hold, entries_setParentPageId]
        exact hmem
      · have hyn : y ≠ n := by
          rintro rfl
          rw [hn] at hy
          cases hy
        refine ⟨y, c, by simp [growCells, hyn, hyr, hy], ?_⟩
        rw [hsame y c hy hyr]
        exact hmem
    · rintro ⟨y, c, hy, hmem⟩
      rcases hcases hy with rfl | rfl | ⟨hyr, -, hy⟩
      · rw [hpage, entries_internal] at hmem
        cases hmem
      · rw [hold, entries_setParentPageId] at hmem
        exact ⟨_, _, h.shape.top, hmem⟩
      · rw [hsame y c hy hyr] at hmem
        exact ⟨y, c, hy, hmem⟩
  · intro y c hy
    rcases hcases hy with rfl | rfl | ⟨-, -, hy⟩
    · exact hnext
    · exact lt_trans (h.fresh _ _ h.shape.top) hle
    · exact lt_trans (h.fresh _ _ hy) hle
  · have hheight := h.height
    have hpos' : (0 : Int) < t'.nextPageId := lt_trans hpos hnext
    have hlt := (Int.toNat_lt_toNat hpos').mpr hle
    omega
  · simp [hdel]

/-- The only child of the root as the new root; its size is still to be
looked at. -/
theorem drop (h : Standing ω R m t G H x) {u : InternalPage K} {k : K} {child : PageId}
    (hu : t.pages t.rootPageId = some (.internal u)) (harr : u.array = [(k, child)])
    (hchild : t'.pages child = (t.pages child).map (·.setParentPageId invalidPageId))
    (hsame : ∀ y c, G y = some c → y ≠ t.rootPageId → y ≠ child → t'.pages y = t.pages y)
    (hroot : t'.rootPageId = child) (hheader : HeaderOk ω.toIndexParams R t')
    (hnext : t'.nextPageId = t.nextPageId)
    (hdel : ∀ y ∈ t'.deletedPageSet,
      y ∈ t'.pageSet ∧ dropCells G t.rootPageId child H y = none) :
    Standing ω R m t' (dropCells G t.rootPageId child H) (H - 1) (child :: x) := by
  have hG_child : G child = some ⟨H - 1, ⊥, ⊤, t.rootPageId⟩ := by
    refine (h.shape.internalOk h.shape.top hu).children (child, ⊥, ⊤) ?_
    simp [harr]
  have hcr : child ≠ t.rootPageId := h.shape.ne_root_of_parent h.shape.top hG_child rfl
  have hcases : ∀ {y c}, dropCells G t.rootPageId child H y = some c →
      y ≠ t.rootPageId ∧ (y = child ∨ y ≠ child ∧ G y = some c) := by
    intro y c hy
    by_cases hyr : y = t.rootPageId
    · simp [dropCells, hyr] at hy
    · by_cases hyc : y = child
      · exact ⟨hyr, Or.inl hyc⟩
      · simp only [dropCells, hyc, hyr, if_false] at hy
        exact ⟨hyr, Or.inr ⟨hyc, hy⟩⟩
  have hshape := h.shape.drop hu harr hchild hsame
  refine ⟨hroot.symm ▸ hshape, ?_, ?_, ?_, ?_, hheader, hdel⟩
  · intro y c page hy hout hpage
    simp only [List.mem_cons, not_or] at hout
    obtain ⟨hyr, rfl | ⟨hyc, hy⟩⟩ := hcases hy
    · exact absurd rfl hout.1
    · exact h.sized y c page hy hout.2 ((hsame y c hy hyr hyc).symm.trans hpage)
  · intro k' v
    rw [h.holds]
    constructor
    · rintro ⟨y, c, hy, hmem⟩
      have hyr : y ≠ t.rootPageId := by
        rintro rfl
        rw [hu, entries_internal] at hmem
        cases hmem
      by_cases hyc : y = child
      · subst hyc
        refine ⟨y, ⟨H - 1, ⊥, ⊤, invalidPageId⟩, by simp [dropCells, hyr], ?_⟩
        rw [hchild, entries_setParentPageId]
        exact hmem
      · refine ⟨y, c, by simp [dropCells, hyr, hyc, hy], ?_⟩
        rw [hsame y c hy hyr hyc]
        exact hmem
    · rintro ⟨y, c, hy, hmem⟩
      obtain ⟨hyr, rfl | ⟨hyc, hy⟩⟩ := hcases hy
      · rw [hchild, entries_setParentPageId] at hmem
        exact ⟨_, _, hG_child, hmem⟩
      · rw [hsame y c hy hyr hyc] at hmem
        exact ⟨y, c, hy, hmem⟩
  · intro y c hy
    rw [hnext]
    obtain ⟨-, rfl | ⟨-, hy⟩⟩ := hcases hy
    · exact h.fresh _ _ hG_child
    · exact h.fresh _ _ hy
  · have hheight := h.height
    rw [hnext]
    omega

end Standing

end BPlusTree

end ScuDb
