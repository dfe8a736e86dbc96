import ScuDb.Foundations.Comparator
import ScuDb.Foundations.Partition
import ScuDb.Foundations.SortedEntries
import ScuDb.Index.BPlusTree

/-!
When a store of pages is a B+ tree.

The shape of a tree is described page by page. A `Cell` says where a
page stands: its height above the leaves, the interval of keys it is
responsible for, and its parent. An assignment of cells to page ids
describes the whole tree; `PageOk` is what a page has to satisfy in its
cell, and it mentions only the cells of the page's own children or of
the leaf it links to. A change of a few pages therefore has to be
checked at these pages and their neighbours only.

Positions in the key order are elements of a bounded linear order: the
ranks of keys lie strictly inside it, and the two ends bound the
interval of the root.
-/

namespace ScuDb

open Foundations

variable {K V B : Type} [LinearOrder B] [BoundedOrder B]

/-- The parameters of a tree together with the keys in use and the
order its comparator puts on them. -/
structure OrderedIndex (K B : Type) [LinearOrder B] [BoundedOrder B] extends IndexParams K where
  keys : Set K
  rank : K → B
  ranked : Ranked comparator keys rank
  name_short : indexName.length < 32

/-- The place of a page in the tree. -/
structure Cell (B : Type) where
  height : Nat
  lo : B
  hi : B
  parent : PageId

/-- The places of all pages of a tree. -/
abbrev Cells (B : Type) := PageId → Option (Cell B)

/-- The pages behind the page ids. -/
abbrev Pages (K V : Type) := PageId → Option (TreePage K V)

namespace BPlusTree

variable (ω : OrderedIndex K B)

/-- The link of a leaf whose interval ends at `hi`: to the leaf whose
interval starts there, if there is one. -/
def LinkOk (G : Cells B) (hi : B) (next : PageId) : Prop :=
  hi = ⊤ ∧ next = invalidPageId ∨ hi ≠ ⊤ ∧ ∃ d, G next = some d ∧ d.height = 0 ∧ d.lo = hi

/-- A leaf holds keys of its interval in strict order and links to the
leaf whose interval starts where its own ends. -/
structure LeafOk (G : Cells B) (c : Cell B) (page : LeafPage K V) : Prop where
  height : c.height = 0
  maxSize : page.maxSize = LeafPage.initMaxSize ω.keySize
  entries : SortedWithin ω.rank ω.keys c.lo c.hi page.array
  next : LinkOk G c.hi page.nextPageId

/-- An internal page hands the pieces of its interval to its children.
The key of its first slot is the start of the interval, except in the
pages of the left edge of the tree. -/
structure InternalOk (G : Cells B) (p : PageId) (c : Cell B) (page : InternalPage K) :
    Prop where
  height : 0 < c.height
  maxSize : page.maxSize = InternalPage.initMaxSize ω.keySize
  nonempty : page.array ≠ []
  head : c.lo ≠ ⊥ → ∀ e ∈ page.array.head?, e.1 ∈ ω.keys ∧ ω.rank e.1 = c.lo
  tail : ∀ e ∈ page.array.tail, e.1 ∈ ω.keys
  children : ∀ x ∈ spans ω.rank c.lo page.array c.hi,
    G x.1 = some ⟨c.height - 1, x.2.1, x.2.2, p⟩

def BodyOk (G : Cells B) (p : PageId) (c : Cell B) : TreePage K V → Prop
  | .leaf page => LeafOk ω G c page
  | .internal page => InternalOk ω G p c page

/-- What the page of a cell has to satisfy. -/
structure PageOk (G : Cells B) (p : PageId) (c : Cell B) (page : TreePage K V) : Prop where
  pageId : page.getPageId = p
  parent : page.getParentPageId = c.parent
  body : BodyOk ω G p c page

/-- The pages are a B+ tree with the given root, of height `H`. -/
structure Shape (pages : Pages K V) (G : Cells B) (root : PageId) (H : Nat) : Prop where
  top : G root = some ⟨H, ⊥, ⊤, invalidPageId⟩
  page : ∀ {p c}, G p = some c → ∃ page, pages p = some page ∧ PageOk ω G p c page
  nonempty : ∀ {p c}, G p = some c → c.lo < c.hi
  positive : ∀ {p c}, G p = some c → 0 < p
  linked : ∀ {p c}, G p = some c → p ≠ root →
    c.height < H ∧ ∃ d q, G c.parent = some d ∧ d.height = c.height + 1 ∧
      pages c.parent = some (.internal q) ∧
      (p, c.lo, c.hi) ∈ spans ω.rank d.lo q.array d.hi

variable {ω}

/-! ### Pages of a kind -/

@[simp] theorem header_setParentPageId (page : TreePage K V) (parent : PageId) :
    (page.setParentPageId parent).header = { page.header with parentPageId := parent } := by
  cases page <;> rfl

@[simp] theorem getPageId_setParentPageId (page : TreePage K V) (parent : PageId) :
    (page.setParentPageId parent).getPageId = page.getPageId := by
  simp [TreePage.getPageId]

@[simp] theorem getParentPageId_setParentPageId (page : TreePage K V) (parent : PageId) :
    (page.setParentPageId parent).getParentPageId = parent := by
  simp [TreePage.getParentPageId]

@[simp] theorem getSize_setParentPageId (page : TreePage K V) (parent : PageId) :
    (page.setParentPageId parent).getSize = page.getSize := by
  cases page <;> rfl

/-- The body of a page does not depend on its header's parent id. -/
theorem BodyOk.setParentPageId {G : Cells B} {p : PageId} {c : Cell B} {page : TreePage K V}
    (h : BodyOk ω G p c page) (parent t : PageId) :
    BodyOk ω G p { c with parent := t } (page.setParentPageId parent) := by
  cases page with
  | leaf page => exact ⟨h.height, h.maxSize, h.entries, h.next⟩
  | internal page =>
      exact ⟨h.height, h.maxSize, h.nonempty, h.head, h.tail, h.children⟩

/-- The body of a page depends on the cells of its children, or of its
right neighbour, only. -/
theorem BodyOk.congr {G G' : Cells B} {p : PageId} {c : Cell B} {page : TreePage K V}
    (h : BodyOk ω G p c page)
    (hchild : ∀ x d, G x = some d → d.parent = p → d.height + 1 = c.height → G' x = some d)
    (hnext : ∀ x d, G x = some d → d.height = 0 → c.height = 0 → d.lo = c.hi →
      ∃ d', G' x = some d' ∧ d'.height = 0 ∧ d'.lo = c.hi) :
    BodyOk ω G' p c page := by
  cases page with
  | leaf page =>
      refine ⟨h.height, h.maxSize, h.entries, ?_⟩
      rcases h.next with hlast | ⟨htop, d, hd, hd0, hlo⟩
      · exact Or.inl hlast
      · exact Or.inr ⟨htop, hnext _ _ hd hd0 h.height hlo⟩
  | internal page =>
      refine ⟨h.height, h.maxSize, h.nonempty, h.head, h.tail, fun x hx => ?_⟩
      have hpos := h.height
      exact hchild _ _ (h.children x hx) rfl (Nat.sub_add_cancel hpos)

namespace Shape

variable {pages pages' : Pages K V} {G : Cells B} {root : PageId} {H : Nat}

theorem height_le (h : Shape ω pages G root H) {p : PageId} {c : Cell B}
    (hp : G p = some c) : c.height ≤ H := by
  by_cases hroot : p = root
  · subst hroot
    rw [h.top] at hp
    cases hp
    exact le_rfl
  · exact (h.linked hp hroot).1.le

theorem parent_ne (h : Shape ω pages G root H) {p : PageId} {c : Cell B}
    (hp : G p = some c) (hroot : p ≠ root) : c.parent ≠ invalidPageId := by
  obtain ⟨-, d, -, hd, -⟩ := h.linked hp hroot
  have hpos := h.positive hd
  intro heq
  rw [heq] at hpos
  exact absurd hpos (by decide)

theorem isRootPage_iff (h : Shape ω pages G root H) {p : PageId} {c : Cell B}
    {page : TreePage K V} (hp : G p = some c) (hpage : pages p = some page) :
    page.isRootPage = true ↔ p = root := by
  obtain ⟨page', hpage', hok⟩ := h.page hp
  cases hpage.symm.trans hpage'
  have hparent : page.header.parentPageId = c.parent := hok.parent
  simp only [TreePage.isRootPage, hparent, decide_eq_true_eq]
  constructor
  · intro hinv
    by_contra hroot
    exact h.parent_ne hp hroot hinv
  · rintro rfl
    rw [h.top] at hp
    cases hp
    rfl

theorem internal_of_pos (h : Shape ω pages G root H) {p : PageId} {c : Cell B}
    (hp : G p = some c) (hpos : 0 < c.height) :
    ∃ q, pages p = some (.internal q) ∧ PageOk ω G p c (.internal q : TreePage K V) ∧
      InternalOk ω G p c q := by
  obtain ⟨page, hpage, hok⟩ := h.page hp
  cases page with
  | leaf page => exact absurd (hok.body : LeafOk ω G c page).height (by omega)
  | internal q => exact ⟨q, hpage, hok, hok.body⟩

theorem leaf_of_zero (h : Shape ω pages G root H) {p : PageId} {c : Cell B}
    (hp : G p = some c) (hzero : c.height = 0) :
    ∃ q, pages p = some (.leaf q) ∧ PageOk ω G p c (.leaf q : TreePage K V) ∧
      LeafOk ω G c q := by
  obtain ⟨page, hpage, hok⟩ := h.page hp
  cases page with
  | leaf q => exact ⟨q, hpage, hok, hok.body⟩
  | internal page => exact absurd (hok.body : InternalOk ω G p c page).height (by omega)

theorem internalOk (h : Shape ω pages G root H) {p : PageId} {c : Cell B} {q : InternalPage K}
    (hp : G p = some c) (hq : pages p = some (.internal q)) : InternalOk ω G p c q := by
  obtain ⟨page, hpage, hok⟩ := h.page hp
  cases hq.symm.trans hpage
  exact hok.body

theorem leafOk (h : Shape ω pages G root H) {p : PageId} {c : Cell B} {q : LeafPage K V}
    (hp : G p = some c) (hq : pages p = some (.leaf q)) : LeafOk ω G c q := by
  obtain ⟨page, hpage, hok⟩ := h.page hp
  cases hq.symm.trans hpage
  exact hok.body

theorem span_nonempty (h : Shape ω pages G root H) {p : PageId} {c : Cell B}
    {q : InternalPage K} (hp : G p = some c) (hq : pages p = some (.internal q)) :
    ∀ x ∈ spans ω.rank c.lo q.array c.hi, x.2.1 < x.2.2 :=
  fun x hx => h.nonempty ((h.internalOk hp hq).children x hx)

theorem children_nodup (h : Shape ω pages G root H) {p : PageId} {c : Cell B}
    {q : InternalPage K} (hp : G p = some c) (hq : pages p = some (.internal q)) :
    (q.array.map Prod.snd).Nodup := by
  refine spans_nodup (h.span_nonempty hp hq) fun x hx y hy heq => ?_
  have hok := h.internalOk hp hq
  have hx' := hok.children x hx
  have hy' := hok.children y hy
  rw [heq, hy'] at hx'
  simp only [Option.some.injEq, Cell.mk.injEq] at hx'
  exact Prod.ext hx'.2.1.symm hx'.2.2.1.symm

/-- A page whose cell names `p` as its parent is in a slot of `p`. -/
theorem mem_spans (h : Shape ω pages G root H) {p x : PageId} {c d : Cell B}
    {q : InternalPage K} (hp : G p = some c) (hq : pages p = some (.internal q))
    (hx : G x = some d) (hparent : d.parent = p) :
    (x, d.lo, d.hi) ∈ spans ω.rank c.lo q.array c.hi ∧ d.height + 1 = c.height := by
  have hroot : x ≠ root := by
    rintro rfl
    rw [h.top] at hx
    cases hx
    have hpos := h.positive hp
    rw [← hparent] at hpos
    have hneg : ¬(0 : PageId) < invalidPageId := by decide
    exact absurd hpos hneg
  obtain ⟨-, e, q', he, hheight, hq', hmem⟩ := h.linked hx hroot
  rw [hparent] at he hq'
  cases hp.symm.trans he
  cases hq.symm.trans hq'
  exact ⟨hmem, hheight.symm⟩

/-- Two pages of the same height whose intervals meet are the same page. -/
theorem unique (h : Shape ω pages G root H) {p q : PageId} {c d : Cell B}
    (hp : G p = some c) (hq : G q = some d) (hheight : c.height = d.height) {b : B}
    (hc : c.lo ≤ b ∧ b < c.hi) (hd : d.lo ≤ b ∧ b < d.hi) : p = q := by
  -- towards the root: `n` levels are left above both pages
  obtain ⟨n, hn⟩ : ∃ n, n = H - c.height := ⟨_, rfl⟩
  induction n generalizing p q c d with
  | zero =>
      have hpr : p = root := by
        by_contra hne
        have := (h.linked hp hne).1
        omega
      have hqr : q = root := by
        by_contra hne
        have := (h.linked hq hne).1
        omega
      rw [hpr, hqr]
  | succ n ih =>
      have hlt : c.height < H := by omega
      have hpr : p ≠ root := by
        rintro rfl
        rw [h.top] at hp
        cases hp
        exact absurd hlt (lt_irrefl _)
      have hqr : q ≠ root := by
        rintro rfl
        rw [h.top] at hq
        cases hq
        rw [hheight] at hlt
        exact absurd hlt (lt_irrefl _)
      obtain ⟨-, e, pe, he, hhe, hpe, hmem⟩ := h.linked hp hpr
      obtain ⟨-, f, pf, hf, hhf, hpf, hmem'⟩ := h.linked hq hqr
      have hle := span_le (h.span_nonempty he hpe) _ hmem
      have hle' := span_le (h.span_nonempty hf hpf) _ hmem'
      have hparent : c.parent = d.parent :=
        ih he hf (by omega) ⟨hle.1.trans hc.1, hc.2.trans_le hle.2⟩
          ⟨hle'.1.trans hd.1, hd.2.trans_le hle'.2⟩ (by omega)
      rw [hparent] at he hpe
      cases he.symm.trans hf
      cases hpe.symm.trans hpf
      exact congrArg Prod.fst (span_unique (h.span_nonempty he hpe) hmem hmem' hc hd)

/-- Two pages of the same height whose intervals end at the same place
are the same page. -/
theorem unique_of_hi (h : Shape ω pages G root H) {p q : PageId} {c d : Cell B}
    (hp : G p = some c) (hq : G q = some d) (hheight : c.height = d.height)
    (hhi : c.hi = d.hi) : p = q := by
  have hc := h.nonempty hp
  have hd := h.nonempty hq
  refine h.unique hp hq hheight (b := max c.lo d.lo) ⟨le_max_left _ _, ?_⟩
    ⟨le_max_right _ _, ?_⟩
  · exact max_lt hc (hhi ▸ hd)
  · exact max_lt (hhi ▸ hc) hd

theorem congr (h : Shape ω pages G root H) (hpages : ∀ p c, G p = some c → pages' p = pages p) :
    Shape ω pages' G root H where
  top := h.top
  nonempty := h.nonempty
  positive := h.positive
  page hp := by
    obtain ⟨page, hpage, hok⟩ := h.page hp
    exact ⟨page, (hpages _ _ hp).trans hpage, hok⟩
  linked hp hroot := by
    obtain ⟨hlt, d, q, hd, hheight, hq, hmem⟩ := h.linked hp hroot
    exact ⟨hlt, d, q, hd, hheight, (hpages _ _ hd).trans hq, hmem⟩

/-- A leaf may be replaced by another one that fits its cell. -/
theorem setLeaf (h : Shape ω pages G root H) {p : PageId} {c : Cell B} {page : LeafPage K V}
    (hp : G p = some c) (hzero : c.height = 0)
    (hok : PageOk ω G p c (.leaf page : TreePage K V))
    (hpage : pages' p = some (.leaf page)) (hsame : ∀ y, y ≠ p → pages' y = pages y) :
    Shape ω pages' G root H where
  top := h.top
  nonempty := h.nonempty
  positive := h.positive
  page {y d} hy := by
    by_cases hyp : y = p
    · subst hyp
      cases hp.symm.trans hy
      exact ⟨_, hpage, hok⟩
    · rw [hsame y hyp]
      exact h.page hy
  linked hy hroot := by
    obtain ⟨hlt, d, q, hd, hheight, hq, hmem⟩ := h.linked hy hroot
    refine ⟨hlt, d, q, hd, hheight, ?_, hmem⟩
    rw [hsame _ ?_]
    · exact hq
    · intro heq
      rw [heq, hp] at hd
      cases hd
      omega

end Shape

end BPlusTree

end ScuDb
