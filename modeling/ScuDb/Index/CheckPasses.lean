import ScuDb.Index.TreeChecker
import ScuDb.Index.Structure
import ScuDb.Index.PinsReturned

/-!
The checker says yes to every tree that calls make.

What `isPageCorr` hands to the parent of a page are keys of the interval
of the page, except that the first key of a page on the left edge is no
key at all; and the parent asks for a first key only behind its own first
slot. The checker leaves the tree as it is and gives its pins back.
-/

namespace ScuDb

open Foundations

variable {K V B : Type}

namespace BPlusTree

/-- `Check`, without its look at the buffer pool. -/
def check [Inhabited K] (cmp : K → K → Int) (fuel : Nat) : TreeM K V Bool := do
  let t ← get
  let (isPageInOrderAndSizeCorr, _) ← isPageCorr cmp fuel t.rootPageId default
  let t ← get
  let height ← isBalanced fuel t.rootPageId
  pure (isPageInOrderAndSizeCorr && decide (0 ≤ height))

/-- The calls on the pool have left no page pinned. -/
def AllUnpinned (calls : List PoolCall) : Prop :=
  ∃ u, (PoolUse.start fun _ => 0).replay calls = some u ∧ ∀ y, u.pins y = 0

/-- Pages have been looked at and given back. -/
structure Visited (t t' : BPlusTree K V) : Prop where
  same : t' = { t with calls := t'.calls }
  kept : ∀ u₀ old exclusive extra held count,
    InHand u₀ old exclusive extra held count t.calls →
      InHand u₀ old exclusive extra held count t'.calls

namespace Visited

variable {t t₁ t₂ : BPlusTree K V}

theorem refl (t : BPlusTree K V) : Visited t t := ⟨rfl, fun _ _ _ _ _ _ h => h⟩

theorem trans (h₁ : Visited t t₁) (h₂ : Visited t₁ t₂) : Visited t t₂ where
  same := by
    rw [h₂.same, h₁.same]
  kept u₀ old exclusive extra held count h :=
    h₂.kept u₀ old exclusive extra held count (h₁.kept u₀ old exclusive extra held count h)

/-- What happens while a page is pinned. -/
theorem around {id : PageId}
    (h : Visited { t with calls := .fetchPage id :: t.calls } t₁) :
    Visited t { t₁ with calls := .unpinPage id false :: t₁.calls } where
  same := by
    rw [h.same]
  kept u₀ old exclusive extra held count hold :=
    (h.kept u₀ old exclusive (addPin extra id) held count (hold.fetch id)).unpin

theorem reads {pages : Pages K V} {root : PageId} (h : Visited t t₁)
    (ht : Reads pages root t) : Reads pages root t₁ := by
  rw [h.same]
  exact ht

end Visited

section Shapes

variable [LinearOrder B] [BoundedOrder B] {ω : OrderedIndex K B} {pages : Pages K V}
  {G : Cells B} {root : PageId} {H : Nat}

/-- The two keys that a page is to hand to its parent. -/
structure Bounds (ω : OrderedIndex K B) (lo hi : B) (out : K × K) : Prop where
  low : lo ≠ ⊥ → out.1 ∈ ω.keys ∧ lo ≤ ω.rank out.1
  high : out.2 ∈ ω.keys ∧ ω.rank out.2 < hi

/-- `child` says yes to the page and hands out keys of the interval. -/
def SaysYes (ω : OrderedIndex K B) (pages : Pages K V) (root : PageId)
    (child : PageId → K × K → TreeM K V (Bool × K × K)) (x : PageId × B × B) : Prop :=
  ∀ out t, Reads pages root t → wp (child x.1 out)
    (fun r t' => r.1 = true ∧ Bounds ω x.2.1 x.2.2 r.2 ∧ Visited t t') t

/-- The loop over an internal page, from the second round on. -/
theorem wp_slotsCorr_rest {child : PageId → K × K → TreeM K V (Bool × K × K)}
    {prev : K × PageId} {rest : List (K × PageId)} {hi : B} {left right : K × K}
    {t : BPlusTree K V} (ht : Reads pages root t)
    (hchild : ∀ x ∈ spans ω.rank (ω.rank prev.1) (prev :: rest) hi, SaysYes ω pages root child x)
    (hspan : ∀ x ∈ spans ω.rank (ω.rank prev.1) (prev :: rest) hi, x.2.1 < x.2.2)
    (hprev : prev.1 ∈ ω.keys) (hkeys : ∀ e ∈ rest, e.1 ∈ ω.keys)
    (hleft : left.2 ∈ ω.keys ∧ ω.rank left.2 < boundary ω.rank rest hi) :
    wp (slotsCorr ω.comparator child false prev true left right rest)
      (fun r t' => r = true ∧ Visited t t') t := by
  induction rest generalizing prev left right t with
  | nil =>
      rw [slotsCorr, wp_pure]
      exact ⟨rfl, .refl t⟩
  | cons e rest ih =>
      rw [List.forall_mem_cons] at hkeys
      rw [spans_cons, List.forall_mem_cons] at hchild hspan
      simp only [boundary_cons] at hchild hspan hleft
      have hcell := hchild.2 (e.2, ω.rank e.1, boundary ω.rank rest hi) (by simp)
      simp only [slotsCorr, Bool.false_and, Bool.false_eq_true, if_false, if_true, pure_bind,
        wp_bind]
      refine wp_mono (hcell right t ht) ?_
      rintro ⟨ret, right'⟩ t₁ ⟨rfl, hbounds, hvisited⟩
      obtain ⟨hlow, hle⟩ := hbounds.low (ω.ranked.bot_lt hkeys.1).ne'
      have habove : 0 < ω.comparator e.1 left.2 := (ω.ranked.pos_iff hkeys.1 hleft.1).mpr hleft.2
      have hbelow : ω.comparator e.1 right'.1 ≤ 0 :=
        not_lt.mp fun hpos => absurd ((ω.ranked.pos_iff hkeys.1 hlow).mp hpos) (not_lt.mpr hle)
      have hlt : ω.comparator prev.1 e.1 < 0 := (ω.ranked.neg_iff hprev hkeys.1).mpr hspan.1
      simp only [habove, hbelow, hlt, decide_true, Bool.and_self, Bool.or_true, Bool.not_true,
        Bool.false_eq_true, if_false]
      refine wp_mono (ih (hvisited.reads ht) hchild.2 hspan.2 hkeys.1 hkeys.2 hbounds.high) ?_
      rintro ret t₂ ⟨rfl, hvisited'⟩
      exact ⟨rfl, hvisited.trans hvisited'⟩

theorem wp_slotsCorr (child : PageId → K × K → TreeM K V (Bool × K × K)) {e f : K × PageId}
    {rest : List (K × PageId)} {lo hi : B} (left right : K × K) {t : BPlusTree K V}
    (ht : Reads pages root t)
    (hchild : ∀ x ∈ spans ω.rank lo (e :: f :: rest) hi, SaysYes ω pages root child x)
    (hspan : ∀ x ∈ spans ω.rank lo (e :: f :: rest) hi, x.2.1 < x.2.2)
    (hkeys : ∀ e' ∈ f :: rest, e'.1 ∈ ω.keys) :
    wp (slotsCorr ω.comparator child true e true left right (f :: rest))
      (fun r t' => r = true ∧ Visited t t') t := by
  rw [List.forall_mem_cons] at hkeys
  rw [spans_cons, List.forall_mem_cons] at hchild hspan
  simp only [boundary_cons] at hchild hspan
  have hcell := hchild.2 (f.2, ω.rank f.1, boundary ω.rank rest hi) (by simp)
  simp only [slotsCorr, Bool.and_true, if_true, Bool.true_or, wp_bind]
  refine wp_mono (hchild.1 left t ht) ?_
  rintro ⟨ret, left'⟩ t₁ ⟨rfl, hleft, hvisited₁⟩
  simp only [if_true, wp_bind]
  refine wp_mono (hcell right t₁ (hvisited₁.reads ht)) ?_
  rintro ⟨ret, right'⟩ t₂ ⟨rfl, hright, hvisited₂⟩
  have hvisited := hvisited₁.trans hvisited₂
  obtain ⟨hlow, hle⟩ := hright.low (ω.ranked.bot_lt hkeys.1).ne'
  have habove : 0 < ω.comparator f.1 left'.2 :=
    (ω.ranked.pos_iff hkeys.1 hleft.high.1).mpr hleft.high.2
  have hbelow : ω.comparator f.1 right'.1 ≤ 0 :=
    not_lt.mp fun hpos => absurd ((ω.ranked.pos_iff hkeys.1 hlow).mp hpos) (not_lt.mpr hle)
  simp only [habove, hbelow, decide_true, Bool.and_self, Bool.not_true, Bool.false_eq_true,
    if_false]
  refine wp_mono (wp_slotsCorr_rest (hvisited.reads ht) hchild.2 hspan.2 hkeys.1 hkeys.2
    hright.high) ?_
  rintro ret t₃ ⟨rfl, hvisited₃⟩
  exact ⟨rfl, hvisited.trans hvisited₃⟩

variable {R : Prop} {m : K → Option V} {t₀ : BPlusTree K V}

theorem Standing.two_children (h : Standing ω R m t₀ G H []) {y : PageId} {c : Cell B}
    {q : InternalPage K} (hy : G y = some c) (hq : t₀.pages y = some (.internal q)) :
    ∃ e f rest, q.array = e :: f :: rest := by
  obtain ⟨page, hpage, hok⟩ := h.shape.page hy
  cases hq.symm.trans hpage
  have hsize := (h.sized y c _ hy (by simp) hq).1
  have hmax := hok.getMaxSize_eq
  have hsix := InternalPage.six_le_initMaxSize ω.keySize
  simp only [TreePage.isLeafPage, Bool.false_eq_true, if_false] at hmax
  simp only [TreePage.getMinSize, TreePage.getSize, TreePage.isLeafPage, Bool.false_eq_true,
    if_false, hmax] at hsize
  rcases hq : q.array with _ | ⟨e, _ | ⟨f, rest⟩⟩
  · rw [hq, List.length_nil] at hsize
    split at hsize <;> omega
  · rw [hq, List.length_singleton] at hsize
    split at hsize <;> omega
  · exact ⟨e, f, rest, rfl⟩

/-- The last key of an internal page is below the end of its interval. -/
theorem exists_last_key {lo hi : B} {e f : K × PageId} {rest : List (K × PageId)}
    (hspan : ∀ x ∈ spans ω.rank lo (e :: f :: rest) hi, x.2.1 < x.2.2)
    (hkeys : ∀ e' ∈ f :: rest, e'.1 ∈ ω.keys) :
    ∃ g, (e :: f :: rest)[(f :: rest).length]? = some g ∧ g.1 ∈ ω.keys ∧ ω.rank g.1 < hi := by
  obtain ⟨g, hg⟩ : ∃ g, (e :: f :: rest)[(f :: rest).length]? = some g :=
    ⟨_, List.getElem?_eq_getElem (by simp)⟩
  have hat := getElem?_spans ω.rank lo hi (e :: f :: rest) (f :: rest).length
  rw [hg, Option.map_some] at hat
  have hlt := hspan _ (List.mem_of_getElem? hat)
  have hmem : g ∈ f :: rest := by
    rw [List.length_cons, List.getElem?_cons_succ] at hg
    exact List.mem_of_getElem? hg
  refine ⟨g, hg, hkeys g hmem, ?_⟩
  have hdrop : (e :: f :: rest).drop ((f :: rest).length + 1) = [] := by simp
  simpa [hdrop] using hlt

/-- `isPageCorr` says yes to every page of a standing tree. -/
theorem Standing.saysYes [Inhabited K] (h : Standing ω R m t₀ G H []) (fuel : Nat) {p : PageId}
    {c : Cell B} (hp : G p = some c) (hfuel : c.height < fuel) :
    SaysYes ω t₀.pages t₀.rootPageId (isPageCorr ω.comparator fuel) (p, c.lo, c.hi) := by
  induction fuel generalizing p c with
  | zero => exact absurd hfuel (Nat.not_lt_zero _)
  | succ fuel ih =>
      intro out t ht
      obtain ⟨page, hpage, hok⟩ := h.shape.page hp
      have hread : t.pages p = some page := by
        rw [ht.1]
        exact hpage
      have hne : t.rootPageId ≠ invalidPageId := by
        rw [ht.2]
        exact h.shape.root_ne
      have hsize := h.sized p c page hp (by simp) hpage
      simp only [isPageCorr, wp_bind, wp_get, if_neg hne, wp_fetchPage, wp_readPage]
      refine ⟨page, hread, page, hread, ?_⟩
      have hsized : decide (page.getMinSize ≤ page.getSize ∧ page.getSize ≤ page.getMaxSize) =
          true := decide_eq_true hsize
      cases page with
      | leaf leaf =>
          have hentries := (h.shape.leafOk hp hpage).entries
          have hne := h.leaf_nonempty hp hpage
          have hpos := List.length_pos_iff.mpr hne
          have hfirst : leaf.keyAt 0 = .ok leaf.array[0].1 := by
            rw [LeafPage.keyAt, List.getElem?_eq_getElem hpos]
          have hlast : leaf.keyAt (leaf.array.length - 1) =
              .ok leaf.array[leaf.array.length - 1].1 := by
            rw [LeafPage.keyAt, List.getElem?_eq_getElem (by omega)]
          have horder : leafInOrder ω.comparator leaf.array = true := by
            refine leafInOrder_iff.mpr (List.Pairwise.isChain ?_)
            refine hentries.sorted.imp_of_mem fun ha hb hlt => ?_
            exact ((ω.ranked.neg_iff (hentries.mem _ ha).1 (hentries.mem _ hb).1).mpr hlt).le
          simp only [hfirst, hlast, horder, wp_bind, wp_ofExcept, wp_pure, wp_unpinPage,
            Bool.and_true]
          refine ⟨_, rfl, _, rfl, decide_eq_true hsize, ⟨fun _ => ?_, ?_⟩,
            Visited.around (.refl _)⟩
          · obtain ⟨hmem, hlo, -⟩ := hentries.mem _ (List.getElem_mem hpos)
            exact ⟨hmem, hlo⟩
          · obtain ⟨hmem, -, hhi⟩ := hentries.mem _
              (List.getElem_mem (show leaf.array.length - 1 < leaf.array.length by omega))
            exact ⟨hmem, hhi⟩
      | internal q =>
          have hinternal := h.shape.internalOk hp hpage
          obtain ⟨e, f, rest, harray⟩ := h.two_children hp hpage
          have hspan := h.shape.span_nonempty hp hpage
          have hkeys := hinternal.tail
          have hhead := hinternal.head
          have hchildren := hinternal.children
          rw [harray] at hspan hkeys hhead hchildren
          obtain ⟨g, hg, hgkey, hglt⟩ := exists_last_key hspan hkeys
          have hfirst : q.keyAt 0 = .ok e.1 := by
            rw [InternalPage.keyAt, if_neg (by omega), harray]
            rfl
          have hlast : q.keyAt (((e :: f :: rest).length : Int) - 1) = .ok g.1 := by
            rw [InternalPage.keyAt, if_neg (by simp; omega), harray,
              show (((e :: f :: rest).length : Int) - 1).toNat = (f :: rest).length by simp, hg]
          have hpos := hinternal.height
          have hloop := wp_slotsCorr (isPageCorr ω.comparator fuel) default default
            (t := { t with calls := .fetchPage p :: t.calls }) ht
            (fun x hx => ih (hchildren x hx) (by simp only; omega)) hspan hkeys
          simp only [hsized, harray, wp_bind]
          refine wp_mono hloop ?_
          rintro ret t₁ ⟨rfl, hvisited⟩
          simp only [hfirst, hlast, wp_ofExcept, wp_pure, wp_unpinPage]
          refine ⟨_, rfl, _, rfl, trivial, ⟨fun hlo => ?_, hgkey, hglt⟩, hvisited.around⟩
          obtain ⟨hmem, hrank⟩ := hhead hlo e rfl
          exact ⟨hmem, hrank.ge⟩

/-- The loop over the children of an internal page finds that they are all
`n` levels above the leaves. -/
theorem wp_balancedLoop (child : PageId → TreeM K V Int) {n : Nat} {last : Int}
    {array : List (K × PageId)} {t : BPlusTree K V} (ht : Reads pages root t)
    (hchild : ∀ e ∈ array, ∀ t, Reads pages root t →
      wp (child e.2) (fun r t' => r = n ∧ Visited t t') t)
    (hlast : last = n ∨ last = -2 ∧ array ≠ []) (ret : Int) (hret : last = n → ret = n + 1) :
    wp (balancedLoop child last ret array) (fun r t' => r = n + 1 ∧ Visited t t') t := by
  induction array generalizing last ret t with
  | nil =>
      rw [balancedLoop, wp_pure]
      exact ⟨hret (hlast.resolve_right fun h => h.2 rfl), .refl t⟩
  | cons e rest ih =>
      rw [List.forall_mem_cons] at hchild
      rw [balancedLoop, wp_bind]
      refine wp_mono (hchild.1 t ht) ?_
      rintro cur t₁ ⟨rfl, hvisited⟩
      have hnext (ret' : Int) (hret' : (n : Int) = n → ret' = n + 1) :
          wp (balancedLoop child n ret' rest) (fun r t' => r = n + 1 ∧ Visited t t') t₁ := by
        refine wp_mono (ih (hvisited.reads ht) hchild.2 (.inl rfl) ret' hret') ?_
        rintro r t₂ ⟨rfl, hvisited'⟩
        exact ⟨rfl, hvisited.trans hvisited'⟩
      rcases hlast with rfl | ⟨rfl, -⟩
      · rw [if_neg (by omega), if_neg (by simp)]
        exact hnext ret hret
      · rw [if_pos ⟨Int.natCast_nonneg n, rfl⟩]
        exact hnext _ fun _ => rfl

/-- `isBalanced` gives the height of every page of a standing tree. -/
theorem Standing.wp_isBalanced (h : Standing ω R m t₀ G H []) (fuel : Nat) {p : PageId}
    {c : Cell B} (hp : G p = some c) (hfuel : c.height < fuel) {t : BPlusTree K V}
    (ht : Reads t₀.pages t₀.rootPageId t) :
    wp (isBalanced fuel p) (fun r t' => r = c.height ∧ Visited t t') t := by
  induction fuel generalizing p c t with
  | zero => exact absurd hfuel (Nat.not_lt_zero _)
  | succ fuel ih =>
      obtain ⟨page, hpage, hok⟩ := h.shape.page hp
      have hread : t.pages p = some page := by
        rw [ht.1]
        exact hpage
      have hne : t.rootPageId ≠ invalidPageId := by
        rw [ht.2]
        exact h.shape.root_ne
      simp only [isBalanced, wp_bind, wp_get, if_neg hne, wp_fetchPage, wp_readPage]
      refine ⟨page, hread, page, hread, ?_⟩
      cases page with
      | leaf leaf =>
          have hzero := (h.shape.leafOk hp hpage).height
          simp only [wp_bind, wp_pure, wp_unpinPage]
          exact ⟨by rw [hzero]; rfl, Visited.around (.refl _)⟩
      | internal q =>
          have hinternal := h.shape.internalOk hp hpage
          have hpos := hinternal.height
          simp only [wp_bind, wp_pure, wp_unpinPage]
          have hloop := wp_balancedLoop (isBalanced fuel) (n := c.height - 1)
            (t := { t with calls := .fetchPage p :: t.calls }) ht
            (fun e (he : e ∈ q.array) t ht => ?_) (.inr ⟨rfl, hinternal.nonempty⟩) 0 (by omega)
          · refine wp_mono hloop ?_
            rintro r t₁ ⟨rfl, hvisited⟩
            exact ⟨by omega, hvisited.around⟩
          · obtain ⟨x, hx, heq⟩ := exists_span_of_mem ω.rank c.lo c.hi he
            have hcell := hinternal.children x hx
            rw [heq] at hcell
            exact ih hcell (by simp only; omega) ht

theorem Standing.wp_check [Inhabited K] (h : Standing ω R m t₀ G H []) {fuel : Nat}
    (hfuel : H < fuel) :
    wp (check ω.comparator fuel) (fun r t' => r = true ∧ Visited t₀ t') t₀ := by
  have htop : (Cell.mk H ⊥ ⊤ invalidPageId : Cell B).height < fuel := hfuel
  have hread : Reads t₀.pages t₀.rootPageId t₀ := ⟨rfl, rfl⟩
  simp only [check, wp_bind, wp_get]
  refine wp_mono (h.saysYes fuel h.shape.top htop default t₀ hread) ?_
  rintro ⟨ret, out⟩ t₁ ⟨rfl, -, hvisited⟩
  have hread₁ := hvisited.reads hread
  simp only [wp_pure]
  rw [hread₁.2]
  refine wp_mono (h.wp_isBalanced fuel h.shape.top htop hread₁) ?_
  rintro r t₂ ⟨rfl, hvisited'⟩
  exact ⟨by simp, hvisited.trans hvisited'⟩

end Shapes

end BPlusTree

/-- In every tree a run of calls leads to, `Check` says yes, given fuel for
one round more than the tree has levels; it leaves the tree as it is, and
then no page is pinned. -/
theorem tree_check_passes [Inhabited K] [DecidableEq K] [Inhabited V] (params : IndexParams K)
    (S : Set K) (hcmp : StrictTotalOrderOn params.comparator S)
    (hname : params.indexName.length < 32) (header : HeaderPage)
    (hroom : header.recorded params.indexName = none →
      header.getRecordCount < HeaderPage.capacity)
    (next : PageId) (hnext : 1 ≤ next) (ops : List (IndexOp K V))
    (hkeys : ∀ op ∈ ops, op.key ∈ S) :
    ∃ rs t, runAll (IndexOp.run params) ops (BPlusTree.empty header next) = .ok (rs, t) ∧
      ∃ enough, ∀ fuel, enough ≤ fuel → wp (BPlusTree.check params.comparator fuel)
        (fun r t' => r = true ∧ t' = { t with calls := t'.calls } ∧
          BPlusTree.AllUnpinned t'.calls) t := by
  obtain ⟨B, hB, hB', ω, rfl, rfl⟩ := exists_orderedIndex params hcmp hname
  obtain ⟨rs, t, hrun, -, ht⟩ := (IndexOp.refines_atRest ω).run
    (BPlusTree.atRest_empty (V := V) ω hnext hroom)
    (admissible_of_forall (fun op hop _ => hkeys op hop) _)
  have hunpinned {t' : BPlusTree K V} (h : BPlusTree.Visited t t') :
      BPlusTree.AllUnpinned t'.calls := by
    obtain ⟨u, ⟨recent, hcalls, hreplay⟩, hold⟩ := h.kept _ _ _ _ _ _ ht.kept
    rw [List.append_nil] at hcalls
    exact ⟨u, hcalls ▸ hreplay, fun y => by rw [hold.pins]; rfl⟩
  refine ⟨rs, t, hrun, ?_⟩
  rcases ht.represents.tree with ⟨hempty, -⟩ | ⟨G, H, hs⟩
  · refine ⟨1, fun fuel hfuel => ?_⟩
    obtain ⟨fuel, rfl⟩ := Nat.exists_eq_succ_of_ne_zero (Nat.one_le_iff_ne_zero.mp hfuel)
    simp only [BPlusTree.check, BPlusTree.isPageCorr, BPlusTree.isBalanced, wp_bind, wp_get,
      if_pos hempty, wp_pure]
    exact ⟨by simp, trivial, hunpinned (.refl t)⟩
  · refine ⟨H + 1, fun fuel hfuel => wp_mono (hs.wp_check hfuel) ?_⟩
    rintro r t' ⟨hr, hvisited⟩
    exact ⟨hr, hvisited.same, hunpinned hvisited⟩

theorem tree_check_passes_integers :
    ∃ rs t, runAll (IndexOp.run wideIndex) (splitsAndMerges (10 : Nat))
        (BPlusTree.empty HeaderPage.init 1) = .ok (rs, t) ∧
      ∃ enough, ∀ fuel, enough ≤ fuel → wp (BPlusTree.check wideIndex.comparator fuel)
        (fun r t' => r = true ∧ t' = { t with calls := t'.calls } ∧
          BPlusTree.AllUnpinned t'.calls) t :=
  tree_check_passes wideIndex Set.univ strictTotalOrderOn_sub (by decide) HeaderPage.init
    (fun _ => by decide) 1 (by decide) _ fun _ _ => Set.mem_univ _

end ScuDb
