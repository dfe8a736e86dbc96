import ScuDb.Index.Contract

/-!
What a reader of the pages sees of a tree.

`WellFormed` says in terms of the stored pages alone what it means to be
a B+ tree: nothing of the cells and ranks of `Shape` is left in it. It
holds between any two calls of any run.
-/

namespace ScuDb

open Foundations

variable {K V B : Type} [LinearOrder B] [BoundedOrder B]

namespace BPlusTree

/-- The key `k` is stored in a leaf below `y`, or separates two pages below it. -/
inductive KeyBelow (pages : Pages K V) : PageId → K → Prop
  | entry {y : PageId} {leaf : LeafPage K V} {e : K × V} (hy : pages y = some (.leaf leaf))
      (he : e ∈ leaf.array) : KeyBelow pages y e.1
  | separator {y : PageId} {q : InternalPage K} {e : K × PageId}
      (hy : pages y = some (.internal q)) (he : e ∈ q.array.tail) : KeyBelow pages y e.1
  | child {y : PageId} {q : InternalPage K} {e : K × PageId} {k : K}
      (hy : pages y = some (.internal q)) (he : e ∈ q.array) (hk : KeyBelow pages e.2 k) :
      KeyBelow pages y k

/-- The pages `n` levels below `y`, from left to right. -/
def leavesBelow (pages : Pages K V) : Nat → PageId → List PageId
  | 0, y => [y]
  | n + 1, y =>
      match pages y with
      | some (.internal q) => q.array.flatMap fun e => leavesBelow pages n e.2
      | _ => []

/-- The leaves are linked in this order, and the last one to nothing. -/
def LeafChain (pages : Pages K V) : List PageId → Prop
  | [] => False
  | [y] => ∃ leaf, pages y = some (.leaf leaf) ∧ leaf.nextPageId = invalidPageId
  | y :: z :: rest =>
      (∃ leaf, pages y = some (.leaf leaf) ∧ leaf.nextPageId = z) ∧ LeafChain pages (z :: rest)

/-- The pages below the root form a B+ tree whose leaves have the given depth. -/
structure WellFormed (params : IndexParams K) (t : BPlusTree K V) (depth : Nat) : Prop where
  page : ∀ {n y}, Below t.pages t.rootPageId n y →
    ∃ page, t.pages y = some page ∧ page.getPageId = y
  leafDepth : ∀ {n y page}, Below t.pages t.rootPageId n y → t.pages y = some page →
    (page.isLeafPage = true ↔ n = depth)
  maxSize : ∀ {n y page}, Below t.pages t.rootPageId n y → t.pages y = some page →
    page.getMaxSize = if page.isLeafPage then LeafPage.initMaxSize params.keySize
      else InternalPage.initMaxSize params.keySize
  size : ∀ {n y page}, Below t.pages t.rootPageId n y → t.pages y = some page →
    page.getMinSize ≤ page.getSize ∧ page.getSize ≤ page.getMaxSize
  rootSize : ∀ {page}, t.pages t.rootPageId = some page →
    (if page.isLeafPage then 1 else 2) ≤ page.getSize
  sorted : ∀ {n y leaf}, Below t.pages t.rootPageId n y → t.pages y = some (.leaf leaf) →
    leaf.array.Pairwise fun a b => params.comparator a.1 b.1 < 0
  separated : ∀ {n y q i e k}, Below t.pages t.rootPageId n y → t.pages y = some (.internal q) →
    q.array[i]? = some e → KeyBelow t.pages e.2 k →
    (0 < i → 0 ≤ params.comparator k e.1) ∧
      ∀ f, q.array[i + 1]? = some f → params.comparator k f.1 < 0
  rootParent : ∀ {page}, t.pages t.rootPageId = some page → page.getParentPageId = invalidPageId
  parent : ∀ {n y q e page}, Below t.pages t.rootPageId n y → t.pages y = some (.internal q) →
    e ∈ q.array → t.pages e.2 = some page → page.getParentPageId = y
  leaves : ∀ {y}, y ∈ leavesBelow t.pages depth t.rootPageId ↔ Below t.pages t.rootPageId depth y
  nodup : (leavesBelow t.pages depth t.rootPageId).Nodup
  chain : LeafChain t.pages (leavesBelow t.pages depth t.rootPageId)

/-- Leaves whose intervals follow one another from `lo` to `hi`. -/
def Consecutive (G : Cells B) (hi : B) : B → List PageId → Prop
  | lo, [] => lo = hi
  | lo, y :: rest => ∃ c, G y = some c ∧ c.height = 0 ∧ c.lo = lo ∧ Consecutive G hi c.hi rest

namespace Consecutive

omit [BoundedOrder B]

variable {G : Cells B} {lo mid hi : B} {l l' : List PageId}

omit [LinearOrder B] in
theorem append (h : Consecutive G mid lo l) (h' : Consecutive G hi mid l') :
    Consecutive G hi lo (l ++ l') := by
  induction l generalizing lo with
  | nil =>
      change lo = mid at h
      rw [h]
      exact h'
  | cons y rest ih =>
      obtain ⟨c, hc, hzero, hlo, hrest⟩ := h
      exact ⟨c, hc, hzero, hlo, ih hrest⟩

theorem le_of_mem (h : Consecutive G hi lo l) (hG : ∀ {y c}, G y = some c → c.lo < c.hi)
    {y : PageId} (hy : y ∈ l) : ∃ c, G y = some c ∧ c.height = 0 ∧ lo ≤ c.lo := by
  induction l generalizing lo with
  | nil => cases hy
  | cons z rest ih =>
      obtain ⟨c, hc, hzero, rfl, hrest⟩ := h
      rcases List.mem_cons.mp hy with rfl | hy
      · exact ⟨c, hc, hzero, le_rfl⟩
      · obtain ⟨d, hd, hzero', hle⟩ := ih hrest hy
        exact ⟨d, hd, hzero', (hG hc).le.trans hle⟩

theorem nodup (h : Consecutive G hi lo l) (hG : ∀ {y c}, G y = some c → c.lo < c.hi) :
    l.Nodup := by
  induction l generalizing lo with
  | nil => exact List.nodup_nil
  | cons y rest ih =>
      obtain ⟨c, hc, -, -, hrest⟩ := h
      refine List.nodup_cons.mpr ⟨fun hmem => ?_, ih hrest⟩
      obtain ⟨d, hd, -, hle⟩ := hrest.le_of_mem hG hmem
      cases hc.symm.trans hd
      exact absurd (hG hc) (not_lt.mpr hle)

omit [LinearOrder B] in
theorem suffix (h : Consecutive G hi lo (l ++ l')) : ∃ mid, Consecutive G hi mid l' := by
  induction l generalizing lo with
  | nil => exact ⟨lo, h⟩
  | cons y rest ih =>
      obtain ⟨c, -, -, -, hrest⟩ := h
      exact ih hrest

/-- Some leaf of the row is responsible for any position in its range. -/
theorem covers (h : Consecutive G hi lo l) {b : B} (hlo : lo ≤ b) (hhi : b < hi) :
    ∃ y ∈ l, ∃ c, G y = some c ∧ c.height = 0 ∧ c.lo ≤ b ∧ b < c.hi := by
  induction l generalizing lo with
  | nil =>
      change lo = hi at h
      rw [h] at hlo
      exact absurd hhi (not_lt.mpr hlo)
  | cons y rest ih =>
      obtain ⟨c, hc, hzero, rfl, hrest⟩ := h
      rcases lt_or_ge b c.hi with hlt | hge
      · exact ⟨y, List.mem_cons_self, c, hc, hzero, hlo, hlt⟩
      · obtain ⟨z, hz, hcell⟩ := ih hrest hge
        exact ⟨z, List.mem_cons_of_mem y hz, hcell⟩

omit [LinearOrder B] in
/-- Rows put together slot by slot. -/
theorem flatMap {rank : K → B} {f : PageId → List PageId} (l : List (K × PageId))
    (h : ∀ x ∈ spans rank (boundary rank l hi) l hi, Consecutive G x.2.2 x.2.1 (f x.1)) :
    Consecutive G hi (boundary rank l hi) (l.flatMap fun e => f e.2) := by
  induction l with
  | nil => rfl
  | cons e rest ih =>
      simp only [spans_cons, List.forall_mem_cons] at h
      rw [List.flatMap_cons]
      exact h.1.append (ih h.2)

end Consecutive

section Standing

variable {ω : OrderedIndex K B} {R : Prop} {m : K → Option V} {t : BPlusTree K V} {G : Cells B}
  {H : Nat} {pages : Pages K V} {root : PageId}

/-- The slot of an index, with the interval of its child. -/
theorem Shape.slot_cell (h : Shape ω pages G root H) {y : PageId} {c : Cell B}
    {q : InternalPage K} {i : Nat} {e : K × PageId} (hy : G y = some c)
    (hq : pages y = some (.internal q)) (he : q.array[i]? = some e) :
    G e.2 = some ⟨c.height - 1, if i = 0 then c.lo else ω.rank e.1,
      boundary ω.rank (q.array.drop (i + 1)) c.hi, y⟩ ∧ (0 < i → e.1 ∈ ω.keys) := by
  have hok := h.internalOk hy hq
  have hspan := getElem?_spans ω.rank c.lo c.hi q.array i
  rw [he, Option.map_some] at hspan
  refine ⟨hok.children _ (List.mem_of_getElem? hspan), fun hpos => ?_⟩
  refine hok.tail e (List.mem_of_getElem? (i := i - 1) ?_)
  rw [List.getElem?_tail, Nat.sub_add_cancel hpos, he]

/-- A key of the page's interval is in the interval of the child in slot
`i` when the keys of this slot and the next enclose it. -/
theorem Shape.slot_interval (h : Shape ω pages G root H) {y : PageId} {c : Cell B}
    {q : InternalPage K} {i : Nat} {e : K × PageId} (hy : G y = some c)
    (hq : pages y = some (.internal q)) (he : q.array[i]? = some e) {k : K} (hk : k ∈ ω.keys)
    (hlo : c.lo ≤ ω.rank k) (hhi : ω.rank k < c.hi) :
    ∃ d, G e.2 = some d ∧ d.height + 1 = c.height ∧
      (d.lo ≤ ω.rank k ∧ ω.rank k < d.hi ↔ (0 < i → 0 ≤ ω.comparator k e.1) ∧
        ∀ f, q.array[i + 1]? = some f → ω.comparator k f.1 < 0) := by
  obtain ⟨hcell, hkey⟩ := h.slot_cell hy hq he
  have hpos := (h.internalOk hy hq).height
  refine ⟨_, hcell, Nat.sub_add_cancel hpos, and_congr ?_ ?_⟩
  · by_cases hi : i = 0
    · simp [hi, hlo]
    · have hpos : 0 < i := Nat.pos_of_ne_zero hi
      simp only [hi, if_false, hpos, forall_const]
      exact (ω.ranked.nonneg_iff hk (hkey hpos)).symm
  · cases hdrop : q.array.drop (i + 1) with
    | nil =>
        have hnone : q.array[i + 1]? = none := by
          rw [← List.head?_drop, hdrop]
          rfl
        simp [hnone, hhi]
    | cons f rest =>
        have hf : q.array[i + 1]? = some f := by
          rw [← List.head?_drop, hdrop]
          rfl
        obtain ⟨-, hfkey⟩ := h.slot_cell hy hq hf
        simp only [hf, Option.some_inj, forall_eq', boundary_cons]
        exact (ω.ranked.neg_iff hk (hfkey (Nat.succ_pos i))).symm

theorem Shape.keyBelow (h : Shape ω pages G root H) {y : PageId} {c : Cell B} {k : K}
    (hk : KeyBelow pages y k) (hy : G y = some c) :
    k ∈ ω.keys ∧ c.lo ≤ ω.rank k ∧ ω.rank k < c.hi := by
  induction hk generalizing c with
  | entry hleaf he => exact (h.leafOk hy hleaf).entries.mem _ he
  | @separator y q e hq he =>
      have hpieces := h.span_nonempty hy hq
      obtain ⟨i, hi⟩ := List.getElem?_of_mem he
      rw [List.getElem?_tail] at hi
      obtain ⟨-, hkey⟩ := h.slot_cell hy hq hi
      have hspan := getElem?_spans ω.rank c.lo c.hi q.array (i + 1)
      rw [hi, Option.map_some] at hspan
      have hmem := List.mem_of_getElem? hspan
      have hin := span_le hpieces _ hmem
      have hlt := hpieces _ hmem
      simp only [Nat.succ_ne_zero, if_false] at hin hlt
      exact ⟨hkey (Nat.succ_pos i), hin.1, hlt.trans_le hin.2⟩
  | child hq he _ ih =>
      obtain ⟨x, hx, heq⟩ := exists_span_of_mem ω.rank c.lo c.hi he
      have hcell := (h.internalOk hy hq).children x hx
      have hin := span_le (h.span_nonempty hy hq) x hx
      obtain ⟨hkey, hlo, hhi⟩ := ih (heq ▸ hcell)
      exact ⟨hkey, hin.1.trans hlo, hhi.trans_le hin.2⟩

/-- The leaves below a page are in a row. -/
theorem Shape.consecutive (h : Shape ω pages G root H) {n : Nat} {y : PageId} {c : Cell B}
    (hy : G y = some c) (hheight : c.height = n) :
    Consecutive G c.hi c.lo (leavesBelow pages n y) := by
  induction n generalizing y c with
  | zero => exact ⟨c, hy, hheight, rfl, rfl⟩
  | succ n ih =>
      obtain ⟨q, hq, -, hok⟩ := h.internal_of_pos hy (by omega)
      have hrow : ∀ x ∈ spans ω.rank c.lo q.array c.hi,
          Consecutive G x.2.2 x.2.1 (leavesBelow pages n x.1) := by
        intro x hx
        exact ih (hok.children x hx) (by simp only; omega)
      simp only [leavesBelow, hq]
      cases harr : q.array with
      | nil => exact absurd harr hok.nonempty
      | cons e rest =>
          rw [harr, spans_cons, List.forall_mem_cons] at hrow
          rw [List.flatMap_cons]
          exact hrow.1.append (Consecutive.flatMap rest hrow.2)

/-- Leaves in a row up to the end are linked in this order. -/
theorem Shape.leafChain (h : Shape ω pages G root H) {lo : B} {l : List PageId}
    (hl : Consecutive G ⊤ lo l) (hne : l ≠ []) : LeafChain pages l := by
  induction l generalizing lo with
  | nil => exact absurd rfl hne
  | cons y rest ih =>
      obtain ⟨c, hc, hzero, -, hrest⟩ := hl
      obtain ⟨leaf, hleaf, -, hok⟩ := h.leaf_of_zero hc hzero
      cases rest with
      | nil =>
          refine ⟨leaf, hleaf, ?_⟩
          rcases hok.next with ⟨-, hlast⟩ | ⟨hnot, -⟩
          · exact hlast
          · exact absurd hrest hnot
      | cons z rest =>
          refine ⟨⟨leaf, hleaf, ?_⟩, ih hrest (by simp)⟩
          obtain ⟨d, hd, hzero', hlo, -⟩ := hrest
          have hlt := h.nonempty hd
          rcases hok.next with ⟨htop, -⟩ | ⟨-, d', hd', hzero₂, hlo'⟩
          · rw [hlo, htop] at hlt
            exact absurd hlt not_top_lt
          · have hlt' := h.nonempty hd'
            refine h.unique hd' hd (hzero₂.trans hzero'.symm) (b := c.hi) ⟨hlo'.le, ?_⟩ ⟨hlo.le, ?_⟩
            · rw [← hlo']
              exact hlt'
            · rw [← hlo]
              exact hlt

theorem Shape.leavesBelow_subset (h : Shape ω pages G root H) {n : Nat} {y : PageId}
    (hy : Below pages root n y) {z : PageId} (hz : z ∈ leavesBelow pages (H - n) y) :
    z ∈ leavesBelow pages H root := by
  induction hy with
  | self => exact hz
  | @child n y q e hy hq he ih =>
      obtain ⟨c, hc, hheight⟩ := h.below (Below.child hy hq he)
      refine ih ?_
      have hsucc : H - n = (H - (n + 1)) + 1 := by omega
      rw [hsucc]
      simp only [leavesBelow, hq]
      exact List.mem_flatMap.mpr ⟨e, he, hz⟩

theorem below_of_mem_leavesBelow {n i : Nat} {y z : PageId} (hy : Below pages root i y)
    (hz : z ∈ leavesBelow pages n y) : Below pages root (i + n) z := by
  induction n generalizing y i with
  | zero =>
      rw [List.mem_singleton.mp hz]
      exact hy
  | succ n ih =>
      simp only [leavesBelow] at hz
      split at hz
      · rename_i q hq
        obtain ⟨e, he, hz⟩ := List.mem_flatMap.mp hz
        have hchild := ih (Below.child hy hq he) hz
        rw [Nat.add_right_comm] at hchild
        exact hchild
      · cases hz

theorem Standing.leaf_nonempty (h : Standing ω R m t G H []) {y : PageId} {c : Cell B}
    {leaf : LeafPage K V} (hy : G y = some c) (hleaf : t.pages y = some (.leaf leaf)) :
    leaf.array ≠ [] := by
  obtain ⟨page, hpage, hok⟩ := h.shape.page hy
  cases hleaf.symm.trans hpage
  have hsize := (h.sized y c _ hy (by simp) hleaf).1
  have hmax := hok.getMaxSize_eq
  have hfive := LeafPage.five_le_initMaxSize ω.keySize
  simp only [TreePage.isLeafPage, if_true] at hmax
  simp only [TreePage.getMinSize, TreePage.getSize, TreePage.isLeafPage, if_true, hmax] at hsize
  rintro hnil
  rw [hnil, List.length_nil] at hsize
  split at hsize <;> omega

theorem Standing.exists_key (h : Standing ω R m t G H []) : ∃ k, m k ≠ none := by
  obtain ⟨y, -, c, hc, hzero, -⟩ := (h.shape.consecutive h.shape.top rfl).covers bot_le
    (h.shape.nonempty h.shape.top)
  obtain ⟨leaf, hleaf, -⟩ := h.shape.leaf_of_zero hc hzero
  obtain ⟨⟨k, v⟩, he⟩ := List.exists_mem_of_ne_nil _ (h.leaf_nonempty hc hleaf)
  refine ⟨k, ?_⟩
  rw [(h.holds k v).mpr ⟨y, c, hc, by rw [hleaf]; exact he⟩]
  simp

/-- A standing tree is well formed. -/
theorem Standing.wellFormed (h : Standing ω R m t G H []) :
    WellFormed ω.toIndexParams t H := by
  have hshape := h.shape
  have hpageOk : ∀ {n y page}, Below t.pages t.rootPageId n y → t.pages y = some page →
      ∃ c, G y = some c ∧ c.height + n = H ∧ PageOk ω G y c page := by
    intro n y page hy hpage
    obtain ⟨c, hc, hheight⟩ := hshape.below hy
    obtain ⟨page', hpage', hok⟩ := hshape.page hc
    cases hpage.symm.trans hpage'
    exact ⟨c, hc, hheight, hok⟩
  have hsize : ∀ {n y page}, Below t.pages t.rootPageId n y → t.pages y = some page →
      SizeOk page := by
    intro n y page hy hpage
    obtain ⟨c, hc, -⟩ := hpageOk hy hpage
    exact h.sized y c page hc (by simp) hpage
  have hrow : Consecutive G ⊤ ⊥ (leavesBelow t.pages H t.rootPageId) :=
    hshape.consecutive hshape.top rfl
  refine ⟨?_, ?_, ?_, hsize, ?_, ?_, ?_, ?_, ?_, ?_, hrow.nodup hshape.nonempty, ?_⟩
  · intro n y hy
    obtain ⟨c, hc, -⟩ := hshape.below hy
    obtain ⟨page, hpage, hok⟩ := hshape.page hc
    exact ⟨page, hpage, hok.pageId⟩
  · intro n y page hy hpage
    obtain ⟨c, hc, hheight, hok⟩ := hpageOk hy hpage
    cases page with
    | leaf leaf =>
        have hzero := (hshape.leafOk hc hpage).height
        simp only [TreePage.isLeafPage, true_iff]
        omega
    | internal q =>
        have hpos := (hshape.internalOk hc hpage).height
        simp only [TreePage.isLeafPage, Bool.false_eq_true, false_iff]
        omega
  · intro n y page hy hpage
    obtain ⟨c, -, -, hok⟩ := hpageOk hy hpage
    exact hok.getMaxSize_eq
  · intro page hpage
    have hroot := (hshape.isRootPage_iff hshape.top hpage).mpr rfl
    have hmin := (hsize .self hpage).1
    simpa [TreePage.getMinSize, hroot] using hmin
  · intro n y leaf hy hleaf
    obtain ⟨c, hc, -⟩ := hpageOk hy hleaf
    have hentries := (hshape.leafOk hc hleaf).entries
    refine hentries.sorted.imp_of_mem fun ha hb hlt => ?_
    exact (ω.ranked.neg_iff (hentries.mem _ ha).1 (hentries.mem _ hb).1).mpr hlt
  · intro n y q i e k hy hq he hk
    obtain ⟨c, hc, -⟩ := hpageOk hy hq
    obtain ⟨hk', hlo, hhi⟩ := hshape.keyBelow (.child hq (List.mem_of_getElem? he) hk) hc
    obtain ⟨d, hd, -, hiff⟩ := hshape.slot_interval hc hq he hk' hlo hhi
    exact hiff.mp (hshape.keyBelow hk hd).2
  · intro page hpage
    obtain ⟨c, hc, -, hok⟩ := hpageOk .self hpage
    cases hshape.top.symm.trans hc
    exact hok.parent
  · intro n y q e page hy hq he hpage
    obtain ⟨c, hc, -⟩ := hpageOk hy hq
    obtain ⟨d, hd, hparent, -⟩ := hshape.child_cell hc hq (List.mem_map_of_mem he)
    obtain ⟨page', hpage', hok⟩ := hshape.page hd
    cases hpage.symm.trans hpage'
    rw [hok.parent, hparent]
  · intro y
    constructor
    · intro hy
      have hbelow := below_of_mem_leavesBelow .self hy
      rwa [Nat.zero_add] at hbelow
    · intro hy
      refine hshape.leavesBelow_subset hy ?_
      rw [Nat.sub_self]
      exact List.mem_singleton_self y
  · refine hshape.leafChain hrow ?_
    intro hnil
    rw [hnil] at hrow
    exact absurd hrow (hshape.nonempty hshape.top).ne

end Standing

end BPlusTree

/-- In every state a run of calls leads to, the tree is empty or well
formed. A run cannot fail: no assert fires, and no page is given more
entries than it has memory for. -/
theorem tree_wellFormed [Inhabited K] [DecidableEq K] [Inhabited V] (params : IndexParams K)
    (S : Set K) (hcmp : StrictTotalOrderOn params.comparator S)
    (hname : params.indexName.length < 32) (header : HeaderPage)
    (hroom : header.recorded params.indexName = none →
      header.getRecordCount < HeaderPage.capacity)
    (next : PageId) (hnext : 1 ≤ next) (ops : List (IndexOp K V))
    (hkeys : ∀ op ∈ ops, op.key ∈ S) :
    ∃ rs t, runAll (IndexOp.run params) ops (BPlusTree.empty header next) = .ok (rs, t) ∧
      (t.rootPageId = invalidPageId ∨ ∃ depth, BPlusTree.WellFormed params t depth) := by
  obtain ⟨B, hB, hB', ω, rfl, rfl⟩ := exists_orderedIndex params hcmp hname
  have hstart := BPlusTree.represents_empty (V := V) ω hnext hroom
  obtain ⟨rs, t, hrun, -, ht⟩ := (IndexOp.refines ω).run hstart
    (admissible_of_forall (fun op hop _ => hkeys op hop) _)
  refine ⟨rs, t, hrun, ht.tree.imp And.left ?_⟩
  rintro ⟨G, H, hs⟩
  exact ⟨H, hs.wellFormed⟩

/-- A tree of three levels. -/
theorem tree_wellFormed_integers :
    ∃ rs t depth, runAll (IndexOp.run wideIndex) (splitsAndMerges (10 : Nat))
        (BPlusTree.empty HeaderPage.init 1) = .ok (rs, t) ∧
      BPlusTree.WellFormed wideIndex t (depth + 2) := by
  obtain ⟨rs, t, hrun, h⟩ := tree_wellFormed wideIndex Set.univ strictTotalOrderOn_sub
    (by decide) HeaderPage.init (fun _ => by decide) 1 (by decide) (splitsAndMerges 10)
    fun _ _ => Set.mem_univ _
  obtain ⟨rs', t', root, child, hrun', hid, hroot, harray, hchild, -⟩ := exists_splitsAndMerges
  cases hrun.symm.trans hrun'
  rcases h with hempty | ⟨depth, h⟩
  · rw [hid] at hempty
    cases hempty
  · rw [← hid] at hroot
    -- neither the root nor its first child is a leaf
    have hbelow : BPlusTree.Below t.pages t.rootPageId 1 3 :=
      .child (e := (0, 3)) .self hroot (by rw [harray]; exact List.mem_cons_self)
    match depth, h with
    | 0, h => cases (h.leafDepth .self hroot).mpr rfl
    | 1, h => cases (h.leafDepth hbelow hchild).mpr rfl
    | depth + 2, h => exact ⟨rs, t, depth, hrun, h⟩

end ScuDb
