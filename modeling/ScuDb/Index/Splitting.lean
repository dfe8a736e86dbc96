import ScuDb.Index.Rearrangement

/-!
Splitting a page that is too full.

`Split` moves the upper half of a page to a new page and leaves the
parent for later. `splitPages` are the pages in between; once the parent
has got a slot for the new page, they are a regrouping of the tree before
the split.
-/

namespace ScuDb

open Foundations

variable {K V B : Type} [LinearOrder B] [BoundedOrder B]

namespace BPlusTree

/-! ### The two halves -/

/-- What stays in a page when it is split, the new page being `r`. -/
def lowerHalf (r : PageId) : TreePage K V → TreePage K V
  | .leaf X => .leaf { X with array := X.array.take ((X.maxSize + 1) / 2), nextPageId := r }
  | .internal X => .internal { X with array := X.array.take ((X.maxSize + 1) / 2) }

/-- What goes to the new page `r`. -/
def upperHalf (r : PageId) : TreePage K V → TreePage K V
  | .leaf X => .leaf { X with pageId := r, array := X.array.drop ((X.maxSize + 1) / 2) }
  | .internal X => .internal { X with pageId := r, array := X.array.drop ((X.maxSize + 1) / 2) }

/-- The children of a page. -/
def childIds : TreePage K V → List PageId
  | .leaf _ => []
  | .internal X => X.array.map Prod.snd

def firstKey : TreePage K V → Option K
  | .leaf X => X.array.head?.map Prod.fst
  | .internal X => X.array.head?.map Prod.fst

/-- The pages after `Split` has moved the upper half of the page `x` to `r`. -/
def splitPages (pages : Pages K V) (x r : PageId) (page : TreePage K V) : Pages K V :=
  adopted (Function.update (Function.update pages r (some (upperHalf r page))) x
    (some (lowerHalf r page))) r (childIds (upperHalf r page))

section Halves

variable {r : PageId} {page : TreePage K V}

@[simp] theorem isRootPage_lowerHalf : (lowerHalf r page).isRootPage = page.isRootPage := by
  cases page <;> rfl

@[simp] theorem isRootPage_upperHalf : (upperHalf r page).isRootPage = page.isRootPage := by
  cases page <;> rfl

@[simp] theorem getParentPageId_lowerHalf :
    (lowerHalf r page).getParentPageId = page.getParentPageId := by
  cases page <;> rfl

@[simp] theorem getMaxSize_lowerHalf : (lowerHalf r page).getMaxSize = page.getMaxSize := by
  cases page <;> rfl

@[simp] theorem getMaxSize_upperHalf : (upperHalf r page).getMaxSize = page.getMaxSize := by
  cases page <;> rfl

theorem getSize_lowerHalf (h : page.getSize = page.getMaxSize + 1) :
    (lowerHalf r page).getSize = (page.getMaxSize + 1) / 2 := by
  cases page <;>
    simp only [TreePage.getSize, TreePage.getMaxSize, TreePage.header] at h <;>
    simp [lowerHalf, TreePage.getSize, TreePage.getMaxSize, TreePage.header] <;> omega

theorem getSize_upperHalf (h : page.getSize = page.getMaxSize + 1) :
    (upperHalf r page).getSize = page.getMaxSize + 1 - (page.getMaxSize + 1) / 2 := by
  cases page <;>
    simp only [TreePage.getSize, TreePage.getMaxSize, TreePage.header] at h <;>
    simp [upperHalf, TreePage.getSize, TreePage.getMaxSize, TreePage.header] <;> omega

theorem lowerHalf_setParentPageId (parent : PageId) :
    lowerHalf r (page.setParentPageId parent) = (lowerHalf r page).setParentPageId parent := by
  cases page <;> rfl

theorem upperHalf_setParentPageId (parent : PageId) :
    upperHalf r (page.setParentPageId parent) = (upperHalf r page).setParentPageId parent := by
  cases page <;> rfl

theorem childIds_setParentPageId (parent : PageId) :
    childIds (page.setParentPageId parent) = childIds page := by
  cases page <;> rfl

theorem firstKey_setParentPageId (parent : PageId) :
    firstKey (page.setParentPageId parent) = firstKey page := by
  cases page <;> rfl

theorem childIds_upperHalf_subset : ∀ y ∈ childIds (upperHalf r page), y ∈ childIds page := by
  cases page with
  | leaf X => simp [childIds, upperHalf]
  | internal X =>
      intro y hy
      simp only [childIds, upperHalf, List.mem_map] at hy ⊢
      obtain ⟨e, he, rfl⟩ := hy
      exact ⟨e, List.mem_of_mem_drop he, rfl⟩

theorem childIds_upperHalf_leaf {X : LeafPage K V} :
    childIds (upperHalf r (.leaf X : TreePage K V)) = [] := rfl

theorem exists_firstKey_upperHalf (h : page.getSize = page.getMaxSize + 1) :
    ∃ key, firstKey (upperHalf r page) = some key := by
  have hsize := getSize_upperHalf (r := r) h
  cases page with
  | leaf X =>
      simp only [upperHalf, TreePage.getSize, TreePage.getMaxSize, TreePage.header] at hsize
      cases harr : X.array.drop ((X.maxSize + 1) / 2) with
      | nil => simp [harr] at hsize; omega
      | cons e rest => exact ⟨e.1, by simp [firstKey, upperHalf, harr]⟩
  | internal X =>
      simp only [upperHalf, TreePage.getSize, TreePage.getMaxSize, TreePage.header] at hsize
      cases harr : X.array.drop ((X.maxSize + 1) / 2) with
      | nil => simp [harr] at hsize; omega
      | cons e rest => exact ⟨e.1, by simp [firstKey, upperHalf, harr]⟩

/-- Both halves of a page that was one entry too full are neither too
full nor too empty, away from the root. -/
theorem sizeOk_halves (h : page.getSize = page.getMaxSize + 1) (hmax : 0 < page.getMaxSize)
    (hroot : page.isRootPage = false) :
    SizeOk (lowerHalf r page) ∧ SizeOk (upperHalf r page) := by
  refine ⟨⟨?_, ?_⟩, ⟨?_, ?_⟩⟩
  · rw [getMinSize_of_not_root (by simpa using hroot), getSize_lowerHalf h, getMaxSize_lowerHalf]
    omega
  · rw [getSize_lowerHalf h, getMaxSize_lowerHalf]
    omega
  · rw [getMinSize_of_not_root (by simpa using hroot), getSize_upperHalf h, getMaxSize_upperHalf]
    omega
  · rw [getSize_upperHalf h, getMaxSize_upperHalf]
    omega

theorem mem_entries_halves (r : PageId) (page : TreePage K V) (e : K × V) :
    e ∈ entries (some (lowerHalf r page)) ∨ e ∈ entries (some (upperHalf r page)) ↔
      e ∈ entries (some page) := by
  cases page with
  | leaf X =>
      simp only [lowerHalf, upperHalf, entries_leaf]
      rw [← List.mem_append, List.take_append_drop]
  | internal X => simp [lowerHalf, upperHalf]

end Halves

/-! ### The program -/

section Program

variable {ω : OrderedIndex K B} {t : BPlusTree K V} {x : PageId} {page : TreePage K V}

theorem wp_split (hpage : t.pages x = some page) (hfull : page.getSize = page.getMaxSize + 1)
    (hmax : page.getMaxSize = if page.isLeafPage then LeafPage.initMaxSize ω.keySize
      else InternalPage.initMaxSize ω.keySize)
    (hchild : ∀ y ∈ childIds page, ∃ p, t.pages y = some p)
    {Q : PageId → BPlusTree K V → Prop}
    (hQ : ∀ calls, Q t.nextPageId { t with
      pages := splitPages t.pages x t.nextPageId page, nextPageId := t.nextPageId + 1,
      pageSet := t.pageSet ++ [t.nextPageId], calls := calls }) :
    wp (split ω.toIndexParams true x) Q t := by
  simp only [split, wp_bind, wp_newPage, wp_record, wp_addIntoPageSet, wp_readPage]
  refine ⟨page, hpage, ?_⟩
  cases page with
  | leaf X =>
      simp only [TreePage.getSize, TreePage.getMaxSize, TreePage.header] at hfull
      simp only [TreePage.getMaxSize, TreePage.header, TreePage.isLeafPage, if_true] at hmax
      have htake : X.array.take (X.maxSize + 1) = X.array := List.take_of_length_le hfull.le
      have hmove : X.moveHalfTo
          (LeafPage.init ω.keySize t.nextPageId X.parentPageId : LeafPage K V) =
          .ok ({ X with array := X.array.take ((X.maxSize + 1) / 2), nextPageId := t.nextPageId },
            { X with pageId := t.nextPageId, array := X.array.drop ((X.maxSize + 1) / 2) }) := by
        have hstore : (X.array.drop ((X.maxSize + 1) / 2)).length ≤
            LeafPage.initMaxSize ω.keySize + 1 := by
          rw [List.length_drop]
          omega
        have hlt : ¬X.array.length < X.maxSize + 1 := by omega
        simp only [LeafPage.moveHalfTo, hlt, if_false, htake, LeafPage.store, LeafPage.init,
          hstore, if_true]
        simp [← hmax]
        rfl
      simp only [wp_bind, wp_ofExcept, wp_writePage, wp_pure]
      refine ⟨_, hmove, ?_⟩
      have hstate := hQ (.store x :: .store t.nextPageId :: .lock true t.nextPageId ::
        .newPage t.nextPageId :: t.calls)
      rw [splitPages, childIds_upperHalf_leaf, adopted_nil] at hstate
      exact hstate
  | internal X =>
      simp only [TreePage.getSize, TreePage.getMaxSize, TreePage.header] at hfull
      simp only [TreePage.getMaxSize, TreePage.header, TreePage.isLeafPage, Bool.false_eq_true,
        if_false] at hmax
      have hmove : X.moveHalfTo
          (InternalPage.init ω.keySize t.nextPageId X.parentPageId : InternalPage K) =
          .ok ({ X with array := X.array.take ((X.maxSize + 1) / 2) },
            { X with pageId := t.nextPageId, array := X.array.drop ((X.maxSize + 1) / 2) }) := by
        have hstore : (X.array.drop ((X.maxSize + 1) / 2)).length ≤
            InternalPage.initMaxSize ω.keySize + 1 := by
          rw [List.length_drop]
          omega
        have hne : ¬X.array.length ≠ X.maxSize + 1 := by omega
        simp only [InternalPage.moveHalfTo, hne, if_false, InternalPage.store, InternalPage.init,
          hstore, if_true]
        simp [← hmax]
        rfl
      simp only [wp_bind, wp_ofExcept, wp_writePage, wp_pure]
      refine ⟨_, hmove, ?_⟩
      refine wp_adoptChildren ?_ ?_
      · intro e he
        have hpage' := hchild e.2 (List.mem_map_of_mem (List.mem_of_mem_drop he))
        exact exists_page_update (exists_page_update hpage')
      · exact hQ

end Program

/-! ### The tree -/

theorem PageOk.leaf_header {ω : OrderedIndex K B} {G : Cells B} {p : PageId} {c : Cell B}
    {X : LeafPage K V} (h : PageOk ω G p c (.leaf X : TreePage K V)) :
    X.toPageHeader = ⟨p, c.parent, LeafPage.initMaxSize ω.keySize⟩ := by
  have hid : X.pageId = p := h.pageId
  have hparent : X.parentPageId = c.parent := h.parent
  have hmax := (h.body : LeafOk ω G c X).maxSize
  rw [← hid, ← hparent, ← hmax]

theorem PageOk.internal_header {ω : OrderedIndex K B} {G : Cells B} {p : PageId} {c : Cell B}
    {X : InternalPage K} (h : PageOk ω G p c (.internal X : TreePage K V)) :
    X.toPageHeader = ⟨p, c.parent, InternalPage.initMaxSize ω.keySize⟩ := by
  have hid : X.pageId = p := h.pageId
  have hparent : X.parentPageId = c.parent := h.parent
  have hmax := (h.body : InternalOk ω G p c X).maxSize
  rw [← hid, ← hparent, ← hmax]

theorem PageOk.getMaxSize_eq {ω : OrderedIndex K B} {G : Cells B} {p : PageId} {c : Cell B}
    {page : TreePage K V} (h : PageOk ω G p c page) :
    page.getMaxSize = if page.isLeafPage then LeafPage.initMaxSize ω.keySize
      else InternalPage.initMaxSize ω.keySize := by
  cases page with
  | leaf X => simp [TreePage.getMaxSize, TreePage.header, TreePage.isLeafPage, h.leaf_header]
  | internal X =>
      simp [TreePage.getMaxSize, TreePage.header, TreePage.isLeafPage, h.internal_header]

namespace Shape

variable {ω : OrderedIndex K B} {pages pages' : Pages K V} {G : Cells B} {root : PageId}
  {H : Nat}

/-- The children of a page have cells below it. -/
theorem child_cell (h : Shape ω pages G root H) {x y : PageId} {c : Cell B}
    {page : TreePage K V} (hx : G x = some c) (hpage : pages x = some page)
    (hy : y ∈ childIds page) : ∃ d, G y = some d ∧ d.parent = x ∧ d.height + 1 = c.height := by
  cases page with
  | leaf X => simp [childIds] at hy
  | internal X =>
      obtain ⟨e, he, rfl⟩ := List.mem_map.mp hy
      have hok := h.internalOk hx hpage
      obtain ⟨s, hs, heq⟩ := exists_span_of_mem ω.rank c.lo c.hi he
      rw [← heq]
      exact ⟨_, hok.children s hs, rfl, Nat.sub_add_cancel hok.height⟩

/-- Where a page other than the root stands in its parent. -/
theorem slot (h : Shape ω pages G root H) {x : PageId} {c : Cell B} (hx : G x = some c)
    (hroot : x ≠ root) :
    ∃ d q before k after, G c.parent = some d ∧ d.height = c.height + 1 ∧
      pages c.parent = some (.internal q) ∧ q.array = before ++ (k, x) :: after ∧
      x ∉ before.map Prod.snd := by
  obtain ⟨-, d, q, hd, hheight, hq, hmem⟩ := h.linked hx hroot
  obtain ⟨before, e, after, harr, heq⟩ := exists_append_of_span hmem
  have hex : x = e.2 := congrArg Prod.fst heq
  have hnodup := h.children_nodup hd hq
  rw [harr, List.map_append, List.map_cons, List.nodup_append] at hnodup
  refine ⟨d, q, before, e.1, after, hd, hheight, hq, ?_, ?_⟩
  · rw [harr, hex]
  · intro hmem'
    exact hnodup.2.2 _ hmem' e.2 List.mem_cons_self hex

end Shape

/-- The regrouping a split amounts to. -/
def splitCut (parent : PageId) (before : List (K × PageId)) (k : K) (x r : PageId)
    (after : List (K × PageId)) (key : K) (page : TreePage K V) : Regroup K where
  parent := parent
  before := before
  key := k
  left := x
  right := r
  after := after
  old := none
  new := some key
  moved := childIds (upperHalf r page)
  target := r

/-- A split page, with a slot for the new page in the parent. -/
theorem Shape.split {ω : OrderedIndex K B} {pages pages' : Pages K V} {G : Cells B}
    {root : PageId} {H : Nat} (h : Shape ω pages G root H) {x r : PageId} {c d : Cell B}
    {page : TreePage K V} {q : InternalPage K} {before after : List (K × PageId)} {k key : K}
    (hx : G x = some c) (hpage : pages x = some page)
    (hfull : page.getSize = page.getMaxSize + 1) (hr : G r = none) (hpos : 0 < r)
    (hd : G c.parent = some d) (hq : pages c.parent = some (.internal q))
    (harr : q.array = before ++ (k, x) :: after) (hkey : firstKey (upperHalf r page) = some key)
    (hparent : pages' c.parent =
      some (.internal { q with array := before ++ (k, x) :: (key, r) :: after }))
    (hl : pages' x = some (lowerHalf r page)) (hu : pages' r = some (upperHalf r page))
    (hm : ∀ y ∈ childIds (upperHalf r page), pages' y = (pages y).map (·.setParentPageId r))
    (hsame : ∀ y e, G y = some e → y ≠ c.parent → y ≠ x → y ≠ r →
      y ∉ childIds (upperHalf r page) → pages' y = pages y) :
    Regroups ω pages pages' G root H (splitCut c.parent before k x r after key page) d q := by
  have hrx : r ≠ x := by
    rintro rfl
    rw [hr] at hx
    cases hx
  have hN : Neighbours ω pages G root H (splitCut c.parent before k x r after key page) d q := by
    refine ⟨h, hd, hq, ?_, fun _ => hr, hpos, hrx, fun y hy => ?_⟩
    · simpa [splitCut, Regroup.array, Regroup.slots] using harr
    · obtain ⟨e, he, hparent', -⟩ := h.child_cell hx hpage (childIds_upperHalf_subset y hy)
      exact ⟨e, he, Or.inl hparent'⟩
  obtain ⟨page', hpage', hok⟩ := h.page hx
  cases hpage.symm.trans hpage'
  have hcell := hN.left_mem
  rw [show (splitCut c.parent before k x r after key page).left = x from rfl, hx,
    Option.some_inj] at hcell
  have hlo : c.lo = (splitCut c.parent before k x r after key page).lower ω.rank d :=
    congrArg Cell.lo hcell
  have hhi : c.hi = (splitCut c.parent before k x r after key page).upper ω.rank d :=
    congrArg Cell.hi hcell
  have hheight : c.height = d.height - 1 := congrArg Cell.height hcell
  have hdpos := hN.parent_height
  cases page with
  | leaf X =>
      have hX : LeafOk ω G c X := hok.body
      have hheader := hok.leaf_header
      simp only [TreePage.getSize, TreePage.getMaxSize, TreePage.header] at hfull
      have hfive := LeafPage.five_le_initMaxSize ω.keySize
      have hmax := hX.maxSize
      refine hN.shareLeaves ?_ rfl rfl hl hu ?_ ?_ ?_ ?_ ?_ rfl ?_ hparent ?_
      · rw [hX.height] at hheight
        omega
      · exact hheader
      · simp [hheader, splitCut]
      · intro hnil
        have hlen := congrArg List.length hnil
        simp only [List.length_take, List.length_nil] at hlen
        omega
      · cases hdrop : X.array.drop ((X.maxSize + 1) / 2) with
        | nil => simp [firstKey, upperHalf, hdrop] at hkey
        | cons e rest =>
            simp only [firstKey, upperHalf, hdrop, List.head?_cons, Option.map_some,
              Option.some_inj] at hkey
            exact ⟨e.2, rest, by rw [← hkey]⟩
      · simp only [List.take_append_drop]
        rw [← hlo, ← hhi]
        exact hX.entries
      · rw [← hhi]
        exact hX.next
      · exact fun y e hy hyp hyl hyr => hsame y e hy hyp hyl hyr (by simp [childIds, upperHalf])
  | internal X =>
      have hX : InternalOk ω G x c X := hok.body
      have hheader := hok.internal_header
      simp only [TreePage.getSize, TreePage.getMaxSize, TreePage.header] at hfull
      have hsix := InternalPage.six_le_initMaxSize ω.keySize
      have hmax := hX.maxSize
      have hnodup := h.children_nodup hx hpage
      rw [← List.take_append_drop ((X.maxSize + 1) / 2) X.array, List.map_append,
        List.nodup_append] at hnodup
      refine hN.shareInternals (hN.family_left rfl hpage) rfl hl hu ?_ ?_
        (List.take_append_drop _ _).symm ?_ ?_ ?_ ?_ hparent hm hsame
      · exact hheader
      · simp [hheader, splitCut]
      · intro hnil
        have hlen := congrArg List.length hnil
        simp only [List.length_take, List.length_nil] at hlen
        omega
      · cases hdrop : X.array.drop ((X.maxSize + 1) / 2) with
        | nil => simp [firstKey, upperHalf, hdrop] at hkey
        | cons e rest =>
            simp only [firstKey, upperHalf, hdrop, List.head?_cons, Option.map_some,
              Option.some_inj] at hkey
            exact ⟨e.2, rest, by rw [← hkey]⟩
      · intro e he e' he'
        have hnot : e.2 ∉ childIds (upperHalf r (.internal X : TreePage K V)) := fun hmem =>
          hnodup.2.2 e.2 (List.mem_map_of_mem he) e.2 hmem rfl
        obtain ⟨f, hf, hfx, -⟩ := h.child_cell hx hpage (y := e.2)
          (List.mem_map_of_mem (List.mem_of_mem_take he))
        cases he'.symm.trans hf
        simp only [Regroup.newParent, splitCut, hnot, if_false]
        exact hfx
      · intro e he e' _
        have hmem : e.2 ∈ childIds (upperHalf r (.internal X : TreePage K V)) :=
          List.mem_map_of_mem he
        simp [Regroup.newParent, splitCut, hmem]

end BPlusTree

end ScuDb
