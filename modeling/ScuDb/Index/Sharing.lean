import ScuDb.Index.Regroup

/-!
How two neighbouring pages share out what they hold.

Seen from the two pages, every regrouping is the same: the entries of
both, one list after the other, are cut at another place. The theorems
here say so for leaves and for internal pages, once for the case that
two pages remain and once for the case that one is left over; what has
to be checked of a particular operation is which list it leaves where.
-/

namespace ScuDb

open Foundations

variable {K V B : Type} [LinearOrder B] [BoundedOrder B]

namespace BPlusTree

namespace Neighbours

variable {ω : OrderedIndex K B} {pages pages' : Pages K V} {G : Cells B} {root : PageId}
  {H : Nat} {cut : Regroup K} {d : Cell B} {q : InternalPage K}

/-! ### Leaves -/

theorem link_upper (h : Neighbours ω pages G root H cut d q) {next : PageId}
    (hlink : LinkOk G (cut.upper ω.rank d) next) :
    LinkOk (cut.cells ω.rank d G) (cut.upper ω.rank d) next := by
  rcases hlink with hlast | ⟨htop, e, he, hzero, hlo⟩
  · exact Or.inl hlast
  · have hr : next ≠ cut.right := by
      rintro rfl
      have hlt := h.shape.nonempty he
      obtain ⟨s, -, rfl⟩ := h.right_cell he
      exact absurd hlo hlt.ne
    obtain ⟨e', he', hheight, hlo'⟩ := h.cells_of_ne_right he hr
    exact Or.inr ⟨htop, e', he', hheight.trans hzero, hlo'.trans hlo⟩

theorem no_grandchildren (h : Neighbours ω pages G root H cut d q) (hheight : d.height = 1)
    {y : PageId} {c : Cell B} (hy : G y = some c)
    (hc : c.parent = cut.left ∨ c.parent = cut.right) : False := by
  have := (h.grandchild_height hy hc).2
  omega

/-- Two leaves remain: the entries are cut in front of an entry with the
new separator as its key. -/
theorem shareLeaves (h : Neighbours ω pages G root H cut d q) (hheight : d.height = 1)
    (hmoved : cut.moved = []) {s : K} (hnew : cut.new = some s) {l r : LeafPage K V}
    (hl : pages' cut.left = some (.leaf l)) (hr : pages' cut.right = some (.leaf r))
    (hlh : l.toPageHeader = ⟨cut.left, cut.parent, LeafPage.initMaxSize ω.keySize⟩)
    (hrh : r.toPageHeader = ⟨cut.right, cut.parent, LeafPage.initMaxSize ω.keySize⟩)
    (hne : l.array ≠ []) (hhead : ∃ v rest, r.array = (s, v) :: rest)
    (hentries : SortedWithin ω.rank ω.keys (cut.lower ω.rank d) (cut.upper ω.rank d)
      (l.array ++ r.array))
    (hlnext : l.nextPageId = cut.right) (hrnext : LinkOk G (cut.upper ω.rank d) r.nextPageId)
    (hparent : pages' cut.parent = some (.internal { q with array := cut.array cut.new }))
    (hsame : ∀ y c, G y = some c → y ≠ cut.parent → y ≠ cut.left → y ≠ cut.right →
      pages' y = pages y) :
    Regroups ω pages pages' G root H cut d q := by
  obtain ⟨v, rest, hr_array⟩ := hhead
  have hlow : cut.lower ω.rank d < ω.rank s ∧ ω.rank s < cut.upper ω.rank d ∧ s ∈ ω.keys := by
    obtain ⟨e, he⟩ := List.exists_mem_of_ne_nil _ hne
    have hfirst := hentries.lt_of_mem (List.mem_append_left _ he)
    have hmem : (s, v) ∈ l.array ++ r.array := by
      rw [hr_array]
      exact List.mem_append_right _ List.mem_cons_self
    have hs := hentries.mem _ hmem
    have hlt := (List.pairwise_append.mp hentries.sorted).2.2 e he (s, v) (by simp [hr_array])
    exact ⟨hfirst.1.trans_lt hlt, hs.2.2, hs.1⟩
  rw [hr_array] at hentries
  obtain ⟨hleft, hright⟩ := hentries.split
  refine { toNeighbours := h, separator := ?_, parent' := hparent, left' := ?_, right' := ?_,
           moved' := ?_, same := ?_, grandchildren := ?_ }
  · intro s' hs'
    cases hnew.symm.trans hs'
    exact ⟨hlow.2.2, hlow.1, hlow.2.1⟩
  · refine ⟨_, hl, ?_, ?_, ?_⟩
    · exact congrArg PageHeader.pageId hlh
    · exact congrArg PageHeader.parentPageId hlh
    · refine ⟨by simp [Regroup.leftCell, hheight], congrArg PageHeader.maxSize hlh, ?_, ?_⟩
      · simpa [Regroup.leftCell, Regroup.middle, hnew] using hleft
      · refine Or.inr ⟨?_, cut.rightCell ω.rank d s, ?_, ?_, ?_⟩
        · simpa [Regroup.leftCell, Regroup.middle, hnew] using (ω.ranked.lt_top hlow.2.2).ne
        · rw [hlnext, h.cells_right, hnew]
          rfl
        · simp [Regroup.rightCell, hheight]
        · simp [Regroup.rightCell, Regroup.leftCell, Regroup.middle, hnew]
  · intro s' hs'
    cases hnew.symm.trans hs'
    refine ⟨_, hr, ?_, ?_, ?_⟩
    · exact congrArg PageHeader.pageId hrh
    · exact congrArg PageHeader.parentPageId hrh
    · refine ⟨by simp [Regroup.rightCell, hheight], congrArg PageHeader.maxSize hrh, ?_, ?_⟩
      · rw [hr_array]
        exact hright
      · exact h.link_upper hrnext
  · simp [hmoved]
  · exact fun y c hy hp hl hr _ => hsame y c hy hp hl hr
  · exact fun y c hy hc => (h.no_grandchildren hheight hy hc).elim

/-- One leaf remains, with all the entries. -/
theorem mergeLeaves (h : Neighbours ω pages G root H cut d q) (hheight : d.height = 1)
    (hmoved : cut.moved = []) (hnew : cut.new = none) {l : LeafPage K V}
    (hl : pages' cut.left = some (.leaf l))
    (hlh : l.toPageHeader = ⟨cut.left, cut.parent, LeafPage.initMaxSize ω.keySize⟩)
    (hentries : SortedWithin ω.rank ω.keys (cut.lower ω.rank d) (cut.upper ω.rank d) l.array)
    (hlnext : LinkOk G (cut.upper ω.rank d) l.nextPageId)
    (hparent : pages' cut.parent = some (.internal { q with array := cut.array cut.new }))
    (hsame : ∀ y c, G y = some c → y ≠ cut.parent → y ≠ cut.left → y ≠ cut.right →
      pages' y = pages y) :
    Regroups ω pages pages' G root H cut d q := by
  refine { toNeighbours := h, separator := ?_, parent' := hparent, left' := ?_, right' := ?_,
           moved' := ?_, same := ?_, grandchildren := ?_ }
  · simp [hnew]
  · refine ⟨_, hl, ?_, ?_, ?_⟩
    · exact congrArg PageHeader.pageId hlh
    · exact congrArg PageHeader.parentPageId hlh
    · refine ⟨by simp [Regroup.leftCell, hheight], congrArg PageHeader.maxSize hlh, ?_, ?_⟩
      · simpa [Regroup.leftCell, Regroup.middle, hnew] using hentries
      · have hlink := h.link_upper hlnext
        simpa [Regroup.leftCell, Regroup.middle, hnew] using hlink
  · simp [hnew]
  · simp [hmoved]
  · exact fun y c hy hp hl hr _ => hsame y c hy hp hl hr
  · exact fun y c hy hc => (h.no_grandchildren hheight hy hc).elim

end Neighbours

/-! ### Internal pages -/

/-- `W` lists the slots of both pages. -/
structure Family (ω : OrderedIndex K B) (G : Cells B) (cut : Regroup K) (d : Cell B)
    (W : List (K × PageId)) : Prop where
  height : 1 < d.height
  cell : ∀ x ∈ spans ω.rank (cut.lower ω.rank d) W (cut.upper ω.rank d), ∃ p,
    G x.1 = some ⟨d.height - 2, x.2.1, x.2.2, p⟩ ∧ (p = cut.left ∨ p = cut.right)
  span : ∀ y c, G y = some c → c.parent = cut.left ∨ c.parent = cut.right →
    (y, c.lo, c.hi) ∈ spans ω.rank (cut.lower ω.rank d) W (cut.upper ω.rank d)
  head : cut.lower ω.rank d ≠ ⊥ → ∀ e ∈ W.head?,
    e.1 ∈ ω.keys ∧ ω.rank e.1 = cut.lower ω.rank d
  tail : ∀ e ∈ W.tail, e.1 ∈ ω.keys

namespace Neighbours

variable {ω : OrderedIndex K B} {pages pages' : Pages K V} {G : Cells B} {root : PageId}
  {H : Nat} {cut : Regroup K} {d : Cell B} {q : InternalPage K}

theorem old_separator_mem (h : Neighbours ω pages G root H cut d q) {s : K}
    (hold : cut.old = some s) : s ∈ ω.keys := by
  have htail := (h.shape.internalOk h.parent h.page).tail
  refine htail (s, cut.right) ?_
  rw [h.array, Regroup.array, hold]
  cases cut.before with
  | nil => simp [Regroup.slots]
  | cons e before => simp [Regroup.slots]

theorem family_left (h : Neighbours ω pages G root H cut d q) (hold : cut.old = none)
    {l : InternalPage K} (hl : pages cut.left = some (.internal l)) :
    Family ω G cut d l.array := by
  have hleft := h.left_mem
  have hok := h.shape.internalOk hleft hl
  have hpos := hok.height
  simp only [Regroup.leftCell, Regroup.middle, hold, Option.elim] at hok hpos
  refine ⟨by omega, fun x hx => ?_, fun y c hy hc => ?_, hok.head, hok.tail⟩
  · exact ⟨cut.left, hok.children x hx, Or.inl rfl⟩
  · rcases hc with hc | hc
    · have hmem := (h.shape.mem_spans hleft hl hy hc).1
      simpa [Regroup.leftCell, Regroup.middle, hold] using hmem
    · obtain ⟨-, e, u, he, -⟩ := h.shape.linked hy (h.grandchild_height hy (Or.inr hc)).1
      rw [hc, h.fresh hold] at he
      cases he

/-- The first key of a right neighbour is the separator in the parent. -/
theorem right_head (h : Neighbours ω pages G root H cut d q) {s : K} (hold : cut.old = some s)
    {r : InternalPage K} (hr : pages cut.right = some (.internal r)) :
    ∃ c rest, r.array = (s, c) :: rest := by
  have hs := h.old_separator_mem hold
  have hok := h.shape.internalOk (h.right_mem hold) hr
  cases harr : r.array with
  | nil => exact absurd harr hok.nonempty
  | cons e rest =>
      have hhead := hok.head (ω.ranked.bot_lt hs).ne' e (by simp [harr])
      have hkey : e.1 = s := ω.ranked.inj hhead.1 hs hhead.2
      exact ⟨e.2, rest, by rw [← hkey]⟩

theorem family_both (h : Neighbours ω pages G root H cut d q) {s : K}
    (hold : cut.old = some s) {l r : InternalPage K}
    (hl : pages cut.left = some (.internal l)) (hr : pages cut.right = some (.internal r)) :
    Family ω G cut d (l.array ++ r.array) := by
  have hleft := h.left_mem
  have hright := h.right_mem hold
  have hokl := h.shape.internalOk hleft hl
  have hokr := h.shape.internalOk hright hr
  obtain ⟨c₀, rest, hhead⟩ := h.right_head hold hr
  have hpos := hokl.height
  have hspans : spans ω.rank (cut.lower ω.rank d) (l.array ++ r.array) (cut.upper ω.rank d) =
      spans ω.rank (cut.lower ω.rank d) l.array (ω.rank s) ++
        spans ω.rank (ω.rank s) r.array (cut.upper ω.rank d) := by
    rw [spans_append hokl.nonempty, hhead, boundary_cons]
  simp only [Regroup.leftCell] at hpos
  refine ⟨by omega, fun x hx => ?_, fun y c hy hc => ?_, fun hlo e he => ?_, fun e he => ?_⟩
  · rw [hspans, List.mem_append] at hx
    rcases hx with hx | hx
    · refine ⟨cut.left, hokl.children x ?_, Or.inl rfl⟩
      simpa [Regroup.leftCell, Regroup.middle, hold] using hx
    · exact ⟨cut.right, hokr.children x hx, Or.inr rfl⟩
  · rw [hspans, List.mem_append]
    rcases hc with hc | hc
    · left
      have hmem := (h.shape.mem_spans hleft hl hy hc).1
      simpa [Regroup.leftCell, Regroup.middle, hold] using hmem
    · exact Or.inr (h.shape.mem_spans hright hr hy hc).1
  · rw [List.head?_append_of_ne_nil _ hokl.nonempty] at he
    exact hokl.head hlo e he
  · rw [List.tail_append_of_ne_nil hokl.nonempty, List.mem_append] at he
    rcases he with he | he
    · exact hokl.tail e he
    · rw [hhead] at he
      rcases List.mem_cons.mp he with rfl | he
      · exact h.old_separator_mem hold
      · exact hokr.tail e (by simp [hhead, he])

theorem family_nonempty (h : Neighbours ω pages G root H cut d q) {W : List (K × PageId)}
    (fam : Family ω G cut d W) :
    ∀ x ∈ spans ω.rank (cut.lower ω.rank d) W (cut.upper ω.rank d), x.2.1 < x.2.2 := by
  intro x hx
  obtain ⟨p, hp, -⟩ := fam.cell x hx
  exact h.shape.nonempty hp

/-- A grandchild, in the page it now belongs to. -/
theorem cell_of_family (h : Neighbours ω pages G root H cut d q) {W : List (K × PageId)}
    (fam : Family ω G cut d W) {x : PageId × B × B}
    (hx : x ∈ spans ω.rank (cut.lower ω.rank d) W (cut.upper ω.rank d)) {p : PageId}
    (hp : ∀ c, G x.1 = some c → cut.newParent x.1 c = p) :
    cut.cells ω.rank d G x.1 = some ⟨d.height - 1 - 1, x.2.1, x.2.2, p⟩ := by
  obtain ⟨p', hcell, hparent⟩ := fam.cell x hx
  rw [h.cells_grandchild hcell hparent, hp _ hcell]
  rfl

/-- Two internal pages remain: the slots are cut in front of a slot with
the new separator as its key. -/
theorem shareInternals (h : Neighbours ω pages G root H cut d q) {W : List (K × PageId)}
    (fam : Family ω G cut d W) {s : K} (hnew : cut.new = some s) {l r : InternalPage K}
    (hl : pages' cut.left = some (.internal l)) (hr : pages' cut.right = some (.internal r))
    (hlh : l.toPageHeader = ⟨cut.left, cut.parent, InternalPage.initMaxSize ω.keySize⟩)
    (hrh : r.toPageHeader = ⟨cut.right, cut.parent, InternalPage.initMaxSize ω.keySize⟩)
    (hW : W = l.array ++ r.array) (hne : l.array ≠ [])
    (hhead : ∃ c rest, r.array = (s, c) :: rest)
    (hpl : ∀ e ∈ l.array, ∀ c, G e.2 = some c → cut.newParent e.2 c = cut.left)
    (hpr : ∀ e ∈ r.array, ∀ c, G e.2 = some c → cut.newParent e.2 c = cut.right)
    (hparent : pages' cut.parent = some (.internal { q with array := cut.array cut.new }))
    (hmoved : ∀ y ∈ cut.moved, pages' y = (pages y).map (·.setParentPageId cut.target))
    (hsame : ∀ y c, G y = some c → y ≠ cut.parent → y ≠ cut.left → y ≠ cut.right →
      y ∉ cut.moved → pages' y = pages y) :
    Regroups ω pages pages' G root H cut d q := by
  obtain ⟨c₀, rest, hr_array⟩ := hhead
  have hspans : spans ω.rank (cut.lower ω.rank d) W (cut.upper ω.rank d) =
      spans ω.rank (cut.lower ω.rank d) l.array (ω.rank s) ++
        spans ω.rank (ω.rank s) r.array (cut.upper ω.rank d) := by
    rw [hW, spans_append hne, hr_array, boundary_cons]
  have hpieces := h.family_nonempty fam
  rw [hspans] at hpieces
  have hs : s ∈ ω.keys := by
    refine fam.tail (s, c₀) ?_
    rw [hW, List.tail_append_of_ne_nil hne, hr_array]
    simp
  have hheight := fam.height
  have hleft : ∀ x ∈ spans ω.rank (cut.lower ω.rank d) l.array (ω.rank s),
      cut.cells ω.rank d G x.1 = some ⟨d.height - 1 - 1, x.2.1, x.2.2, cut.left⟩ := by
    intro x hx
    obtain ⟨e, he, hex⟩ := exists_mem_of_span hx
    exact h.cell_of_family fam (by rw [hspans]; exact List.mem_append_left _ hx)
      fun c hc => hex ▸ hpl e he c (hex ▸ hc)
  have hright : ∀ x ∈ spans ω.rank (ω.rank s) r.array (cut.upper ω.rank d),
      cut.cells ω.rank d G x.1 = some ⟨d.height - 1 - 1, x.2.1, x.2.2, cut.right⟩ := by
    intro x hx
    obtain ⟨e, he, hex⟩ := exists_mem_of_span hx
    exact h.cell_of_family fam (by rw [hspans]; exact List.mem_append_right _ hx)
      fun c hc => hex ▸ hpr e he c (hex ▸ hc)
  refine { toNeighbours := h, separator := ?_, parent' := hparent, left' := ?_, right' := ?_,
           moved' := hmoved, same := hsame, grandchildren := ?_ }
  · intro s' hs'
    cases hnew.symm.trans hs'
    refine ⟨hs, ?_, ?_⟩
    · exact lt_of_spans hne fun x hx => hpieces x (List.mem_append_left _ hx)
    · exact lt_of_spans (by simp [hr_array]) fun x hx => hpieces x (List.mem_append_right _ hx)
  · refine ⟨_, hl, ?_, ?_, ?_⟩
    · exact congrArg PageHeader.pageId hlh
    · exact congrArg PageHeader.parentPageId hlh
    · refine ⟨?_, congrArg PageHeader.maxSize hlh, hne, ?_, ?_, ?_⟩
      · simp only [Regroup.leftCell]
        omega
      · intro hlo e he
        refine fam.head hlo e ?_
        rw [hW, List.head?_append_of_ne_nil _ hne]
        exact he
      · intro e he
        refine fam.tail e ?_
        rw [hW, List.tail_append_of_ne_nil hne]
        exact List.mem_append_left _ he
      · simpa [Regroup.leftCell, Regroup.middle, hnew] using hleft
  · intro s' hs'
    cases hnew.symm.trans hs'
    refine ⟨_, hr, ?_, ?_, ?_⟩
    · exact congrArg PageHeader.pageId hrh
    · exact congrArg PageHeader.parentPageId hrh
    · refine ⟨?_, congrArg PageHeader.maxSize hrh, by simp [hr_array], ?_, ?_, hright⟩
      · simp only [Regroup.rightCell]
        omega
      · intro _ e he
        rw [hr_array, List.head?_cons, Option.mem_some_iff] at he
        subst he
        exact ⟨hs, rfl⟩
      · intro e he
        refine fam.tail e ?_
        rw [hW, List.tail_append_of_ne_nil hne]
        exact List.mem_append_right _ (List.mem_of_mem_tail he)
  · intro y c hy hc
    have hmem := fam.span y c hy hc
    rw [hspans, List.mem_append] at hmem
    have hgrand := (h.grandchild_height hy hc).2
    rcases hmem with hmem | hmem
    · obtain ⟨e, he, hey⟩ := exists_mem_of_span hmem
      change e.2 = y at hey
      subst hey
      rw [hpl e he c hy]
      refine ⟨_, l, cells_left, ?_, hl, ?_⟩
      · simp only [Regroup.leftCell]
        omega
      · simpa [Regroup.leftCell, Regroup.middle, hnew] using hmem
    · obtain ⟨e, he, hey⟩ := exists_mem_of_span hmem
      change e.2 = y at hey
      subst hey
      rw [hpr e he c hy]
      refine ⟨cut.rightCell ω.rank d s, r, ?_, ?_, hr, hmem⟩
      · rw [h.cells_right, hnew]
        rfl
      · simp only [Regroup.rightCell]
        omega

/-- One internal page remains, with all the slots. -/
theorem mergeInternals (h : Neighbours ω pages G root H cut d q) {W : List (K × PageId)}
    (fam : Family ω G cut d W) (hnew : cut.new = none) {l : InternalPage K}
    (hl : pages' cut.left = some (.internal l))
    (hlh : l.toPageHeader = ⟨cut.left, cut.parent, InternalPage.initMaxSize ω.keySize⟩)
    (hW : W = l.array) (hne : l.array ≠ [])
    (hpl : ∀ e ∈ l.array, ∀ c, G e.2 = some c → cut.newParent e.2 c = cut.left)
    (hparent : pages' cut.parent = some (.internal { q with array := cut.array cut.new }))
    (hmoved : ∀ y ∈ cut.moved, pages' y = (pages y).map (·.setParentPageId cut.target))
    (hsame : ∀ y c, G y = some c → y ≠ cut.parent → y ≠ cut.left → y ≠ cut.right →
      y ∉ cut.moved → pages' y = pages y) :
    Regroups ω pages pages' G root H cut d q := by
  subst hW
  have hheight := fam.height
  refine { toNeighbours := h, separator := ?_, parent' := hparent, left' := ?_, right' := ?_,
           moved' := hmoved, same := hsame, grandchildren := ?_ }
  · simp [hnew]
  · refine ⟨_, hl, ?_, ?_, ?_⟩
    · exact congrArg PageHeader.pageId hlh
    · exact congrArg PageHeader.parentPageId hlh
    · refine ⟨?_, congrArg PageHeader.maxSize hlh, hne, fam.head, fam.tail, ?_⟩
      · simp only [Regroup.leftCell]
        omega
      · intro x hx
        simp only [Regroup.leftCell, Regroup.middle, hnew, Option.elim] at hx ⊢
        obtain ⟨e, he, hex⟩ := exists_mem_of_span hx
        exact h.cell_of_family fam hx fun c hc => hex ▸ hpl e he c (hex ▸ hc)
  · simp [hnew]
  · intro y c hy hc
    have hmem := fam.span y c hy hc
    have hgrand := (h.grandchild_height hy hc).2
    obtain ⟨e, he, hey⟩ := exists_mem_of_span hmem
    change e.2 = y at hey
    subst hey
    rw [hpl e he c hy]
    refine ⟨_, l, cells_left, ?_, hl, ?_⟩
    · simp only [Regroup.leftCell]
      omega
    · simpa [Regroup.leftCell, Regroup.middle, hnew] using hmem

end Neighbours

end BPlusTree

end ScuDb
