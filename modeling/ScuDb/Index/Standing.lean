import ScuDb.Index.Execution
import ScuDb.Index.Shape
import ScuDb.Page.BPlusTreePageLemmas

/-!
The state of a tree in the middle of an operation.

`Standing` is what holds whenever the tree is a tree: its shape, the
sizes of its pages except those in `x`, which an operation has left too
full or too empty, the map it holds, and the bookkeeping of page
ids, of the header record and of the deleted pages. `R` is the
assumption under which the header record names the root.

Searches keep a state standing, and find the leaf whose interval holds
the key.
-/

namespace ScuDb

open Foundations

variable {K V B : Type} [LinearOrder B] [BoundedOrder B]

namespace BPlusTree

/-- The number of entries of a page is within its bounds. -/
def SizeOk (page : TreePage K V) : Prop :=
  page.getMinSize ≤ page.getSize ∧ page.getSize ≤ page.getMaxSize

/-- All pages of the tree but those in `x` have a legal number of entries. -/
def Sized (pages : Pages K V) (G : Cells B) (x : List PageId) : Prop :=
  ∀ y c page, G y = some c → y ∉ x → pages y = some page → SizeOk page

/-- The entries of a leaf. -/
def entries : Option (TreePage K V) → List (K × V)
  | some (.leaf leaf) => leaf.array
  | _ => []

@[simp] theorem entries_leaf (leaf : LeafPage K V) : entries (some (.leaf leaf)) = leaf.array := rfl

@[simp] theorem entries_internal (q : InternalPage K) :
    entries (some (.internal q : TreePage K V)) = [] := rfl

@[simp] theorem entries_setParentPageId (page : Option (TreePage K V)) (parent : PageId) :
    entries (page.map (·.setParentPageId parent)) = entries page := by
  rcases page with _ | _ | _ <;> rfl

/-- Some leaf of the tree has the entry. -/
def Holds (pages : Pages K V) (G : Cells B) (k : K) (v : V) : Prop :=
  ∃ y c, G y = some c ∧ (k, v) ∈ entries (pages y)

/-- There is room for the record of this tree, and under `R` it names the root. -/
def HeaderOk (params : IndexParams K) (R : Prop) (t : BPlusTree K V) : Prop :=
  (t.headerPage.recorded params.indexName = none →
    t.headerPage.getRecordCount < HeaderPage.capacity) ∧
  (R → t.headerPage.recorded params.indexName = some t.rootPageId)

theorem HeaderOk.mono {params : IndexParams K} {R R' : Prop} {t : BPlusTree K V}
    (h : HeaderOk params R t) (hR : R' → R) : HeaderOk params R' t :=
  ⟨h.1, fun hR' => h.2 (hR hR')⟩

/-- The record is updated when the root has changed its id. -/
theorem HeaderOk.updated {params : IndexParams K} {R : Prop} {t t' : BPlusTree K V}
    (h : HeaderOk params R t)
    (hrec : t'.headerPage.recorded params.indexName =
      (t.headerPage.recorded params.indexName).map fun _ => t'.rootPageId)
    (hcount : t'.headerPage.getRecordCount = t.headerPage.getRecordCount) :
    HeaderOk params R t' := by
  refine ⟨fun hnone => ?_, fun hR => ?_⟩
  · rw [hrec, Option.map_eq_none_iff] at hnone
    rw [hcount]
    exact h.1 hnone
  · rw [hrec, h.2 hR]
    rfl

structure Standing (ω : OrderedIndex K B) (R : Prop) (m : K → Option V) (t : BPlusTree K V)
    (G : Cells B) (H : Nat) (x : List PageId) : Prop where
  shape : Shape ω t.pages G t.rootPageId H
  sized : Sized t.pages G x
  holds : ∀ k v, m k = some v ↔ Holds t.pages G k v
  fresh : ∀ y c, G y = some c → y < t.nextPageId
  height : H < t.nextPageId.toNat
  header : HeaderOk ω.toIndexParams R t
  deleted : ∀ y ∈ t.deletedPageSet, y ∈ t.pageSet ∧ G y = none

namespace Standing

variable {ω : OrderedIndex K B} {R : Prop} {m : K → Option V} {t t' : BPlusTree K V}
  {G : Cells B} {H : Nat} {x : List PageId}

/-- What the tree is depends on its pages, its root and the header only. -/
theorem frame (h : Standing ω R m t G H x) (hroot : t'.rootPageId = t.rootPageId)
    (hnext : t'.nextPageId = t.nextPageId) (hheader : t'.headerPage = t.headerPage)
    (hpages : ∀ y c, G y = some c → t'.pages y = t.pages y)
    (hdel : ∀ y ∈ t'.deletedPageSet, y ∈ t'.pageSet ∧ G y = none) :
    Standing ω R m t' G H x where
  shape := hroot ▸ h.shape.congr hpages
  sized y c page hy hx hpage := h.sized y c page hy hx (hpages y c hy ▸ hpage)
  holds k v := by
    rw [h.holds]
    refine exists_congr fun y => exists_congr fun c => and_congr_right fun hy => ?_
    rw [hpages y c hy]
  fresh := hnext ▸ h.fresh
  height := hnext ▸ h.height
  header := by
    unfold HeaderOk
    rw [hheader, hroot]
    exact h.header
  deleted := hdel

/-- An entry stands in the leaf responsible for its key. -/
theorem exists_leaf (h : Standing ω R m t G H x) {k : K} {v : V} (hk : m k = some v) :
    ∃ y c leaf, G y = some c ∧ t.pages y = some (.leaf leaf) ∧ (k, v) ∈ leaf.array ∧
      k ∈ ω.keys ∧ c.lo ≤ ω.rank k ∧ ω.rank k < c.hi := by
  obtain ⟨y, c, hy, hmem⟩ := (h.holds k v).mp hk
  obtain ⟨page, hpage, -⟩ := h.shape.page hy
  cases page with
  | leaf leaf =>
      rw [hpage, entries_leaf] at hmem
      exact ⟨y, c, leaf, hy, hpage, hmem, (h.shape.leafOk hy hpage).entries.mem _ hmem⟩
  | internal q =>
      rw [hpage, entries_internal] at hmem
      cases hmem

/-- A key is in the tree when it is in the leaf responsible for it. -/
theorem holds_iff (h : Standing ω R m t G H x) {p : PageId} {c : Cell B} {leaf : LeafPage K V}
    (hp : G p = some c) (hleaf : t.pages p = some (.leaf leaf)) {k : K} {v : V}
    (hlo : c.lo ≤ ω.rank k) (hhi : ω.rank k < c.hi) :
    m k = some v ↔ (k, v) ∈ leaf.array := by
  constructor
  · intro hk
    obtain ⟨y, d, leaf', hy, hleaf', hmem, -, hin⟩ := h.exists_leaf hk
    have hheight : d.height = c.height := by
      rw [(h.shape.leafOk hy hleaf').height, (h.shape.leafOk hp hleaf).height]
    have heq := h.shape.unique hy hp hheight hin ⟨hlo, hhi⟩
    subst heq
    cases hleaf.symm.trans hleaf'
    exact hmem
  · intro hmem
    refine (h.holds k v).mpr ⟨p, c, hp, ?_⟩
    rw [hleaf]
    exact hmem

theorem lookup_eq (h : Standing ω R m t G H x) {p : PageId} {c : Cell B} {leaf : LeafPage K V}
    (hp : G p = some c) (hleaf : t.pages p = some (.leaf leaf)) {k : K} (hk : k ∈ ω.keys)
    (hlo : c.lo ≤ ω.rank k) (hhi : ω.rank k < c.hi) : leaf.lookup ω.comparator k = m k := by
  have hentries := (h.shape.leafOk hp hleaf).entries
  cases hm : m k with
  | some v =>
      rw [LeafPage.lookup_eq_some_iff ω.ranked hentries hk, ← h.holds_iff hp hleaf hlo hhi]
      exact hm
  | none =>
      rw [LeafPage.lookup_eq_none_iff ω.ranked hentries hk]
      intro v hmem
      rw [(h.holds_iff hp hleaf hlo hhi).mpr hmem] at hm
      cases hm

theorem one_lt_length (h : Standing ω R m t G H x) {p : PageId} {c : Cell B}
    {q : InternalPage K} (hp : G p = some c) (hq : t.pages p = some (.internal q))
    (hx : p ∉ x) : 1 < q.array.length := by
  have hsize := (h.sized p c _ hp hx hq).1
  have hmax := (h.shape.internalOk hp hq).maxSize
  have hsix := InternalPage.six_le_initMaxSize ω.keySize
  simp only [TreePage.getMinSize, TreePage.getSize, TreePage.getMaxSize, TreePage.header,
    TreePage.isLeafPage, Bool.false_eq_true, if_false] at hsize
  split at hsize <;> omega

/-! ### Searching -/

/-- The child the descent goes on with: the one whose piece holds the
position `b`, which is the key's rank, or the least position for the
leftmost leaf. -/
theorem descend (h : Standing ω R m t G H []) {p : PageId} {c : Cell B} {q : InternalPage K}
    (hp : G p = some c) (hq : t.pages p = some (.internal q)) {key : K} {leftMost : Bool}
    {b : B} (hb : if leftMost then b = ⊥ else key ∈ ω.keys ∧ b = ω.rank key)
    (hlo : c.lo ≤ b) (hhi : b < c.hi) :
    ∃ next d, (if leftMost then q.valueAt 0 else q.lookup ω.comparator key) = .ok next ∧
      G next = some d ∧ d.parent = p ∧ d.height + 1 = c.height ∧ d.lo ≤ b ∧ b < d.hi := by
  have hok := h.shape.internalOk hp hq
  have hpieces := h.shape.span_nonempty hp hq
  have hheight : c.height - 1 + 1 = c.height := Nat.sub_add_cancel hok.height
  cases leftMost with
  | true =>
      simp only [if_true] at hb ⊢
      subst hb
      cases harr : q.array with
      | nil => exact absurd harr hok.nonempty
      | cons e rest =>
          have hmem : (e.2, c.lo, boundary ω.rank rest c.hi) ∈
              spans ω.rank c.lo q.array c.hi := by simp [harr]
          refine ⟨e.2, _, ?_, hok.children _ hmem, rfl, hheight, hlo, ?_⟩
          · have hslot : q.array = [] ++ (e.1, e.2) :: rest := harr
            exact InternalPage.valueAt_eq hslot
          · exact bot_le.trans_lt (hpieces _ hmem)
  | false =>
      simp only [Bool.false_eq_true, if_false] at hb ⊢
      obtain ⟨hkey, rfl⟩ := hb
      obtain ⟨s, hs, hlookup, hle, hlt⟩ := InternalPage.lookup_eq ω.ranked hok.tail hpieces
        (h.one_lt_length hp hq (by simp)) hkey hlo hhi
      exact ⟨s.1, _, hlookup, hok.children s hs, rfl, hheight, hle, hlt⟩

/-- The descent, `P` being what is known at each page on the way of the
root lock, the page set and the calls so far. -/
theorem wp_findLeafFrom (h : Standing ω R m t G H []) {key : K} {leftMost transaction : Bool}
    {op : OpType} {b : B}
    (hb : if leftMost then b = ⊥ else key ∈ ω.keys ∧ b = ω.rank key)
    {P : PageId → Nat → List PageId → List PoolCall → Prop}
    (hcrab : ∀ {p c q next d count pageSet calls} {Q : Unit → BPlusTree K V → Prop},
      G p = some c → t.pages p = some (.internal q) → P p count pageSet calls →
      G next = some d → d.parent = p → d.height + 1 = c.height →
      (∀ count pageSet calls, P next count pageSet calls → Q () { t with
        rootLockedCnt := count, pageSet := pageSet, calls := calls }) →
      wp (crabingProtocalFetchPage next op p transaction) Q { t with
        rootLockedCnt := count, pageSet := pageSet, calls := calls })
    {Q : PageId → BPlusTree K V → Prop}
    (hQ : ∀ p c leaf count pageSet calls, G p = some c → c.height = 0 →
      t.pages p = some (.leaf leaf) → c.lo ≤ b → b < c.hi → P p count pageSet calls →
      Q p { t with rootLockedCnt := count, pageSet := pageSet, calls := calls })
    {fuel : Nat} {cur : PageId} {c : Cell B} {count : Nat} {pageSet : List PageId}
    {calls : List PoolCall} (hcur : G cur = some c) (hlo : c.lo ≤ b) (hhi : b < c.hi)
    (hfuel : c.height < fuel) (hP : P cur count pageSet calls) :
    wp (findLeafFrom ω.toIndexParams key leftMost op transaction fuel cur) Q
      { t with rootLockedCnt := count, pageSet := pageSet, calls := calls } := by
  induction fuel generalizing cur c count pageSet calls with
  | zero => omega
  | succ fuel ih =>
      rw [findLeafFrom, wp_bind, wp_readPage]
      by_cases hzero : c.height = 0
      · obtain ⟨leaf, hleaf, -, -⟩ := h.shape.leaf_of_zero hcur hzero
        refine ⟨_, hleaf, ?_⟩
        rw [wp_pure]
        exact hQ cur c leaf count pageSet calls hcur hzero hleaf hlo hhi hP
      · obtain ⟨q, hq, -, -⟩ := h.shape.internal_of_pos hcur (Nat.pos_of_ne_zero hzero)
        obtain ⟨next, d, hnext, hd, hparent, hheight, hdlo, hdhi⟩ :=
          h.descend hcur hq hb hlo hhi
        refine ⟨_, hq, ?_⟩
        simp only [wp_bind, wp_ofExcept]
        refine ⟨next, hnext, ?_⟩
        refine hcrab hcur hq hP hd hparent hheight fun count' pageSet' calls' hP' => ?_
        exact ih hd hdlo hdhi (by omega) hP'

/-- `FindLeafPage` on a tree that is not empty. -/
theorem wp_findLeafPage (h : Standing ω R m t G H []) {key : K} {leftMost transaction : Bool}
    {op : OpType} {b : B}
    (hb : if leftMost then b = ⊥ else key ∈ ω.keys ∧ b = ω.rank key)
    {P : PageId → Nat → List PageId → List PoolCall → Prop}
    (hroot : ∀ {page} {Q : Unit → BPlusTree K V → Prop}, t.pages t.rootPageId = some page →
      (∀ count pageSet calls, P t.rootPageId count pageSet calls → Q () { t with
        rootLockedCnt := count, pageSet := pageSet, calls := calls }) →
      wp (crabingProtocalFetchPage t.rootPageId op (-1) transaction) Q { t with
        rootLockedCnt := t.rootLockedCnt + 1, calls := .lockRoot (op ≠ .read) :: t.calls })
    (hcrab : ∀ {p c q next d count pageSet calls} {Q : Unit → BPlusTree K V → Prop},
      G p = some c → t.pages p = some (.internal q) → P p count pageSet calls →
      G next = some d → d.parent = p → d.height + 1 = c.height →
      (∀ count pageSet calls, P next count pageSet calls → Q () { t with
        rootLockedCnt := count, pageSet := pageSet, calls := calls }) →
      wp (crabingProtocalFetchPage next op p transaction) Q { t with
        rootLockedCnt := count, pageSet := pageSet, calls := calls })
    {Q : Option PageId → BPlusTree K V → Prop}
    (hQ : ∀ p c leaf count pageSet calls, G p = some c → c.height = 0 →
      t.pages p = some (.leaf leaf) → c.lo ≤ b → b < c.hi → P p count pageSet calls →
      Q (some p) { t with rootLockedCnt := count, pageSet := pageSet, calls := calls }) :
    wp (findLeafPage ω.toIndexParams key leftMost op transaction) Q t := by
  have hpos := h.shape.positive h.shape.top
  have hne : t.rootPageId ≠ invalidPageId := by
    intro heq
    rw [heq] at hpos
    exact absurd hpos (by decide)
  have htop : b < (⊤ : B) := by
    cases leftMost with
    | true =>
        simp only [if_true] at hb
        rw [hb]
        exact h.shape.nonempty h.shape.top
    | false =>
        simp only [Bool.false_eq_true, if_false] at hb
        rw [hb.2]
        exact ω.ranked.lt_top hb.1
  obtain ⟨page, hpage, -⟩ := h.shape.page h.shape.top
  simp only [findLeafPage, lockRootPageId, wp_bind, wp_modify, wp_getRootPageId, wp_get, hne,
    if_false]
  refine hroot hpage fun count pageSet calls hP => ?_
  refine h.wp_findLeafFrom hb hcrab ?_ h.shape.top bot_le htop h.height hP
  intro p c leaf count' pageSet' calls' hp hzero hleaf hlo hhi hP'
  rw [wp_pure]
  exact hQ p c leaf count' pageSet' calls' hp hzero hleaf hlo hhi hP'

end Standing

/-! ### Between two operations -/

/-- The tree stands, with no page left too full or too empty. -/
def Stands (ω : OrderedIndex K B) (R : Prop) (m : K → Option V) (t : BPlusTree K V) : Prop :=
  ∃ (G : Cells B) (H : Nat), Standing ω R m t G H []

/-- The leaf `y` is in the tree, and the keys it is responsible for lie above `b`. -/
def Above (G : Cells B) (b : B) (y : PageId) : Prop :=
  ∃ c, G y = some c ∧ c.height = 0 ∧ b < c.lo

/-- What has become of a tree with the cells `S`: its pages are in the
tree `G` or to be deleted, and the leaves marked in `A` start above their
marks. -/
structure Outlived (S : Cells B) (A : Set (B × PageId)) (G : Cells B) (deleted : List PageId) :
    Prop where
  pages : ∀ y, S y ≠ none → G y ≠ none ∨ y ∈ deleted
  marks : ∀ b y, (b, y) ∈ A → Above G b y

namespace Outlived

variable {S : Cells B} {A : Set (B × PageId)} {G G' : Cells B} {deleted : List PageId}

omit [BoundedOrder B] in
theorem refl (hA : ∀ b y, (b, y) ∈ A → Above G b y) : Outlived G A G deleted :=
  ⟨fun _ hy => Or.inl hy, hA⟩

omit [BoundedOrder B] in
/-- The page `r` may leave the tree or start somewhere else, all others
keep their heights and the starts of their intervals. -/
theorem next (h : Outlived S A G deleted) {r : PageId} {deleted' : List PageId}
    (hG : ∀ y c, G y = some c → y ≠ r →
      ∃ c', G' y = some c' ∧ c'.height = c.height ∧ c'.lo = c.lo)
    (hr : G r ≠ none → G' r ≠ none ∨ r ∈ deleted') (hdel : ∀ y ∈ deleted, y ∈ deleted')
    (hA : ∀ b, (b, r) ∈ A → Above G' b r) : Outlived S A G' deleted' where
  pages y hy := by
    rcases h.pages y hy with hne | hmem
    · by_cases hyr : y = r
      · subst hyr
        exact hr hne
      · obtain ⟨c, hc⟩ := Option.ne_none_iff_exists'.mp hne
        obtain ⟨c', hc', -⟩ := hG y c hc hyr
        exact Or.inl (by simp [hc'])
    · exact Or.inr (hdel y hmem)
  marks b y hy := by
    by_cases hyr : y = r
    · subst hyr
      exact hA b hy
    · obtain ⟨c, hc, hzero, hlo⟩ := h.marks b y hy
      obtain ⟨c', hc', hheight, hlo'⟩ := hG y c hc hyr
      exact ⟨c', hc', hheight.trans hzero, hlo' ▸ hlo⟩

omit [BoundedOrder B] in
/-- All pages keep their heights and the starts of their intervals. -/
theorem of_cells (h : Outlived S A G deleted)
    (hG : ∀ y c, G y = some c → ∃ c', G' y = some c' ∧ c'.height = c.height ∧ c'.lo = c.lo) :
    Outlived S A G' deleted where
  pages y hy := by
    refine (h.pages y hy).imp_left fun hne => ?_
    obtain ⟨c, hc⟩ := Option.ne_none_iff_exists'.mp hne
    obtain ⟨c', hc', -⟩ := hG y c hc
    simp [hc']
  marks b y hy := by
    obtain ⟨c, hc, hzero, hlo⟩ := h.marks b y hy
    obtain ⟨c', hc', hheight, hlo'⟩ := hG y c hc
    exact ⟨c', hc', hheight.trans hzero, hlo' ▸ hlo⟩

theorem not_marked (h : Outlived S A G deleted) {y : PageId} {c : Cell B} (hc : G y = some c)
    (hnot : c.height = 0 → c.lo = ⊥) (b : B) : (b, y) ∉ A := by
  intro hy
  obtain ⟨c', hc', hzero, hlo⟩ := h.marks b y hy
  cases hc.symm.trans hc'
  rw [hnot hzero] at hlo
  exact not_lt_bot hlo

end Outlived

/-- So it does, after a change that began with the cells `S`. -/
def StandsWith (S : Cells B) (A : Set (B × PageId)) (ω : OrderedIndex K B) (R : Prop)
    (m : K → Option V) (t : BPlusTree K V) : Prop :=
  ∃ (G : Cells B) (H : Nat), Standing ω R m t G H [] ∧ Outlived S A G t.deletedPageSet

theorem Standing.mono {ω : OrderedIndex K B} {R R' : Prop} {m : K → Option V}
    {t : BPlusTree K V} {G : Cells B} {H : Nat} {x : List PageId} (h : Standing ω R m t G H x)
    (hR : R' → R) : Standing ω R' m t G H x :=
  ⟨h.shape, h.sized, h.holds, h.fresh, h.height, h.header.mono hR, h.deleted⟩

/-- A tree at rest that holds the map `m`. -/
structure Represents (ω : OrderedIndex K B) (R : Prop) (m : K → Option V)
    (t : BPlusTree K V) : Prop where
  pageSet : t.pageSet = []
  deletedPageSet : t.deletedPageSet = []
  nextPageId : 1 ≤ t.nextPageId
  header : HeaderOk ω.toIndexParams R t
  tree : t.rootPageId = invalidPageId ∧ (∀ k, m k = none) ∨ Stands ω R m t

theorem Represents.mono {ω : OrderedIndex K B} {R R' : Prop} {m : K → Option V}
    {t : BPlusTree K V} (h : Represents ω R m t) (hR : R' → R) : Represents ω R' m t :=
  ⟨h.pageSet, h.deletedPageSet, h.nextPageId, h.header.mono hR,
    h.tree.imp_right fun ⟨G, H, hs⟩ => ⟨G, H, hs.mono hR⟩⟩

theorem Standing.next_fresh {ω : OrderedIndex K B} {R : Prop} {m : K → Option V}
    {t : BPlusTree K V} {G : Cells B} {H : Nat} {x : List PageId}
    (h : Standing ω R m t G H x) : G t.nextPageId = none ∧ 0 < t.nextPageId := by
  refine ⟨?_, lt_trans (h.shape.positive h.shape.top) (h.fresh _ _ h.shape.top)⟩
  cases hcell : G t.nextPageId with
  | none => rfl
  | some d => exact absurd (h.fresh _ _ hcell) (lt_irrefl _)

theorem Stands.frame {ω : OrderedIndex K B} {R : Prop} {m : K → Option V}
    {t t' : BPlusTree K V} (h : Stands ω R m t)
    (hroot : t'.rootPageId = t.rootPageId) (hnext : t'.nextPageId = t.nextPageId)
    (hheader : t'.headerPage = t.headerPage) (hpages : t'.pages = t.pages)
    (hdel : t'.deletedPageSet = []) : Stands ω R m t' := by
  obtain ⟨G, H, h⟩ := h
  exact ⟨G, H, h.frame hroot hnext hheader (fun y _ _ => by rw [hpages]) (by simp [hdel])⟩

/-- All that an operation has left to do is to release its pages. -/
structure Finishing (ω : OrderedIndex K B) (R : Prop) (m : K → Option V)
    (t : BPlusTree K V) : Prop where
  deleted : ∀ y ∈ t.deletedPageSet, y ∈ t.pageSet
  nextPageId : 1 ≤ t.nextPageId
  header : HeaderOk ω.toIndexParams R t
  tree : t.rootPageId = invalidPageId ∧ (∀ k, m k = none) ∨ Stands ω R m t

theorem Stands.finishing {ω : OrderedIndex K B} {R : Prop} {m : K → Option V}
    {t : BPlusTree K V} (h : Stands ω R m t) : Finishing ω R m t := by
  obtain ⟨G, H, h⟩ := h
  exact ⟨fun y hy => (h.deleted y hy).1, h.next_fresh.2, h.header, Or.inr ⟨G, H, h⟩⟩

/-- So it has, and the page set has each page once; the pages that were
in the tree when there were the cells `S` are in it, or to be deleted. -/
structure Ending (S : Cells B) (A : Set (B × PageId)) (ω : OrderedIndex K B) (R : Prop)
    (m : K → Option V) (t : BPlusTree K V) : Prop where
  nodup : t.pageSet.Nodup
  deleted : ∀ y ∈ t.deletedPageSet, y ∈ t.pageSet
  nextPageId : 1 ≤ t.nextPageId
  header : HeaderOk ω.toIndexParams R t
  tree : t.rootPageId = invalidPageId ∧ (∀ k, m k = none) ∧
      Outlived S A (fun _ => none) t.deletedPageSet ∨ StandsWith S A ω R m t

section Ending

variable {S : Cells B} {A : Set (B × PageId)} {ω : OrderedIndex K B} {R : Prop}
  {m : K → Option V} {t t' : BPlusTree K V} {G : Cells B} {H : Nat}

theorem Ending.finishing (h : Ending S A ω R m t) : Finishing ω R m t :=
  ⟨h.deleted, h.nextPageId, h.header,
    h.tree.imp (fun ⟨hroot, hm, _⟩ => ⟨hroot, hm⟩) fun ⟨G, H, hs, _⟩ => ⟨G, H, hs⟩⟩

theorem StandsWith.ending (h : StandsWith S A ω R m t) (hnodup : t.pageSet.Nodup) :
    Ending S A ω R m t := by
  obtain ⟨G, H, hs, hS⟩ := h
  exact ⟨hnodup, fun y hy => (hs.deleted y hy).1, hs.next_fresh.2, hs.header,
    Or.inr ⟨G, H, hs, hS⟩⟩

theorem Standing.ending (h : Standing ω R m t G H []) (hnodup : t.pageSet.Nodup)
    (hS : Outlived S A G t.deletedPageSet) : Ending S A ω R m t :=
  StandsWith.ending ⟨G, H, h, hS⟩ hnodup

theorem Ending.record (h : Ending S A ω R m t)
    (hroot : t'.rootPageId = t.rootPageId) (hpages : t'.pages = t.pages)
    (hheader : t'.headerPage = t.headerPage) (hnext : t'.nextPageId = t.nextPageId)
    (hset : t'.pageSet = t.pageSet) (hdel : t'.deletedPageSet = t.deletedPageSet) :
    Ending S A ω R m t' := by
  refine ⟨hset ▸ h.nodup, ?_, hnext ▸ h.nextPageId, ?_, ?_⟩
  · rw [hset, hdel]
    exact h.deleted
  · unfold HeaderOk
    rw [hheader, hroot]
    exact h.header
  · unfold StandsWith
    rw [hroot, hdel]
    refine h.tree.imp_right fun ⟨G, H, hs, hS⟩ => ⟨G, H, hs.frame hroot hnext hheader ?_ ?_, hS⟩
    · exact fun y c _ => by rw [hpages]
    · rw [hset, hdel]
      exact hs.deleted

end Ending

/-- A tree whose pages are released is at rest. -/
theorem Stands.represents {ω : OrderedIndex K B} {R : Prop} {m : K → Option V}
    {t : BPlusTree K V} (h : Stands ω R m t) (hset : t.pageSet = [])
    (hdel : t.deletedPageSet = []) : Represents ω R m t :=
  ⟨hset, hdel, h.finishing.nextPageId, h.finishing.header, Or.inr h⟩

/-- The pages that are deleted are not in the tree any more. -/
theorem Standing.released {ω : OrderedIndex K B} {R : Prop} {m : K → Option V}
    {t : BPlusTree K V} {G : Cells B} {H : Nat} (h : Standing ω R m t G H []) (count : Nat)
    (calls : List PoolCall) :
    Standing ω R m { t with pages := dropped t.pages t.deletedPageSet, rootLockedCnt := count,
                            pageSet := [], deletedPageSet := [], calls := calls } G H [] := by
  refine h.frame rfl rfl rfl (fun y c hy => ?_) (by simp)
  have hnot : y ∉ t.deletedPageSet := by
    intro hmem
    rw [(h.deleted y hmem).2] at hy
    cases hy
  simp [dropped, hnot]

/-- Releasing the pages at the end of an operation. -/
theorem Finishing.released {ω : OrderedIndex K B} {R : Prop} {m : K → Option V}
    {t : BPlusTree K V} (h : Finishing ω R m t) (count : Nat) (calls : List PoolCall) :
    Represents ω R m { t with pages := dropped t.pages t.deletedPageSet, rootLockedCnt := count,
                              pageSet := [], deletedPageSet := [], calls := calls } := by
  refine ⟨rfl, rfl, h.nextPageId, h.header, ?_⟩
  rcases h.tree with hempty | ⟨G, H, hs⟩
  · exact Or.inl hempty
  · exact Or.inr ⟨G, H, hs.released count calls⟩

theorem represents_empty (ω : OrderedIndex K B) {header : HeaderPage} {next : PageId}
    (hnext : 1 ≤ next) (hroom : header.recorded ω.indexName = none →
      header.getRecordCount < HeaderPage.capacity) :
    Represents ω False (fun _ => none) (empty header next : BPlusTree K V) where
  pageSet := rfl
  deletedPageSet := rfl
  nextPageId := hnext
  header := ⟨hroom, False.elim⟩
  tree := Or.inl ⟨rfl, fun _ => rfl⟩

end BPlusTree

end ScuDb
