import ScuDb.Index.Shape

/-!
Growing a tree by a new root, and dropping a root with a single child.

Together with regrouping, these are all the changes of the structure of
a tree. A split of the root is a new root above it followed by a
regrouping below that root.
-/

namespace ScuDb

open Foundations

variable {K V B : Type} [LinearOrder B] [BoundedOrder B]

namespace BPlusTree

/-- The cells after a page `n` has been put above the root. -/
def growCells (G : Cells B) (root n : PageId) (H : Nat) : Cells B := fun y =>
  if y = n then some ⟨H + 1, ⊥, ⊤, invalidPageId⟩
  else if y = root then some ⟨H, ⊥, ⊤, n⟩
  else G y

/-- The cells after the root has given way to its only child. -/
def dropCells (G : Cells B) (root child : PageId) (H : Nat) : Cells B := fun y =>
  if y = root then none
  else if y = child then some ⟨H - 1, ⊥, ⊤, invalidPageId⟩
  else G y

namespace Shape

variable {ω : OrderedIndex K B} {pages pages' : Pages K V} {G : Cells B} {root : PageId} {H : Nat}

theorem ne_root_of_parent (h : Shape ω pages G root H) {x y : PageId} {c d : Cell B}
    (hy : G y = some d) (hx : G x = some c) (hparent : c.parent = y) : x ≠ root := by
  rintro rfl
  rw [h.top] at hx
  cases hx
  have hpos := h.positive hy
  have hneg : ¬(0 : PageId) < invalidPageId := by decide
  rw [← hparent] at hpos
  exact hneg hpos

theorem grow (h : Shape ω pages G root H) {n : PageId} (hn : G n = none) (hpos : 0 < n) {k : K}
    (hpage : pages' n = some (.internal
      ⟨⟨n, invalidPageId, InternalPage.initMaxSize ω.keySize⟩, [(k, root)]⟩))
    (hroot : pages' root = (pages root).map (·.setParentPageId n))
    (hsame : ∀ y c, G y = some c → y ≠ root → pages' y = pages y) :
    Shape ω pages' (growCells G root n H) n (H + 1) := by
  have hne : ∀ {y c}, G y = some c → y ≠ n := by
    rintro y c hy rfl
    rw [hn] at hy
    cases hy
  have hnr : root ≠ n := hne h.top
  have hcell_n : growCells G root n H n = some ⟨H + 1, ⊥, ⊤, invalidPageId⟩ := by
    simp [growCells]
  have hcell_root : growCells G root n H root = some ⟨H, ⊥, ⊤, n⟩ := by
    simp [growCells, hnr]
  have hcell : ∀ {y c}, G y = some c → y ≠ root → growCells G root n H y = some c := by
    intro y c hy hyr
    simp [growCells, hne hy, hyr, hy]
  have hbody : ∀ {y c} {page : TreePage K V}, G y = some c → BodyOk ω G y c page →
      BodyOk ω (growCells G root n H) y c page := by
    intro y c page hy hbody
    refine hbody.congr (fun x e hx hparent _ => ?_) (fun x e hx hzero _ hlo => ?_)
    · exact hcell hx (h.ne_root_of_parent hy hx hparent)
    · by_cases hxr : x = root
      · subst hxr
        rw [h.top] at hx
        cases hx
        exact ⟨_, hcell_root, hzero, hlo⟩
      · exact ⟨e, hcell hx hxr, hzero, hlo⟩
  have hcases : ∀ {y c'}, growCells G root n H y = some c' →
      y = n ∧ c' = ⟨H + 1, ⊥, ⊤, invalidPageId⟩ ∨ y = root ∧ c' = ⟨H, ⊥, ⊤, n⟩ ∨
        y ≠ root ∧ G y = some c' := by
    intro y c' hy
    by_cases hyn : y = n
    · subst hyn
      rw [hcell_n] at hy
      cases hy
      exact Or.inl ⟨rfl, rfl⟩
    · by_cases hyr : y = root
      · subst hyr
        rw [hcell_root] at hy
        cases hy
        exact Or.inr (Or.inl ⟨rfl, rfl⟩)
      · simp only [growCells, hyn, hyr, if_false] at hy
        exact Or.inr (Or.inr ⟨hyr, hy⟩)
  have hall : (⊥ : B) < ⊤ := h.nonempty h.top
  refine ⟨hcell_n, ?_, ?_, ?_, ?_⟩
  · intro y c' hy
    rcases hcases hy with ⟨rfl, rfl⟩ | ⟨rfl, rfl⟩ | ⟨hyr, hy⟩
    · refine ⟨_, hpage, rfl, rfl, Nat.succ_pos H, rfl, by simp, ?_, by simp, ?_⟩
      · exact fun hbot => absurd rfl hbot
      · intro x hx
        simp only [spans_cons, boundary_nil, spans_nil, List.mem_singleton] at hx
        subst hx
        exact hcell_root
    · obtain ⟨page, hpage', hok⟩ := h.page h.top
      refine ⟨page.setParentPageId n, ?_, ?_, ?_, ?_⟩
      · rw [hroot, hpage']
        rfl
      · rw [getPageId_setParentPageId]
        exact hok.pageId
      · rw [getParentPageId_setParentPageId]
      · exact (hbody h.top hok.body).setParentPageId _ _
    · obtain ⟨page, hpage', hok⟩ := h.page hy
      exact ⟨page, (hsame y _ hy hyr).trans hpage', hok.pageId, hok.parent, hbody hy hok.body⟩
  · intro y c' hy
    rcases hcases hy with ⟨-, rfl⟩ | ⟨-, rfl⟩ | ⟨-, hy⟩
    · exact hall
    · exact hall
    · exact h.nonempty hy
  · intro y c' hy
    rcases hcases hy with ⟨rfl, -⟩ | ⟨rfl, -⟩ | ⟨-, hy⟩
    · exact hpos
    · exact h.positive h.top
    · exact h.positive hy
  · intro y c' hy hyn
    rcases hcases hy with ⟨rfl, -⟩ | ⟨rfl, rfl⟩ | ⟨hyr, hy⟩
    · exact absurd rfl hyn
    · exact ⟨Nat.lt_succ_self H, _, _, hcell_n, rfl, hpage, by simp⟩
    · obtain ⟨hlt, d, q, hd, hheight, hq, hmem⟩ := h.linked hy hyr
      refine ⟨Nat.lt_succ_of_lt hlt, ?_⟩
      by_cases hdr : c'.parent = root
      · rw [hdr] at hd hq ⊢
        rw [h.top] at hd
        cases hd
        refine ⟨_, { q with parentPageId := n }, hcell_root, hheight, ?_, hmem⟩
        rw [hroot, hq]
        rfl
      · exact ⟨d, q, hcell hd hdr, hheight, (hsame _ _ hd hdr).trans hq, hmem⟩

/-- The only child of the root is a new root. -/
theorem drop (h : Shape ω pages G root H) {q : InternalPage K} {k : K} {child : PageId}
    (hq : pages root = some (.internal q)) (harr : q.array = [(k, child)])
    (hchild : pages' child = (pages child).map (·.setParentPageId invalidPageId))
    (hsame : ∀ y c, G y = some c → y ≠ root → y ≠ child → pages' y = pages y) :
    Shape ω pages' (dropCells G root child H) child (H - 1) := by
  have hok := h.internalOk h.top hq
  have hpos : 0 < H := hok.height
  have hG_child : G child = some ⟨H - 1, ⊥, ⊤, root⟩ := by
    refine hok.children (child, ⊥, ⊤) ?_
    simp [harr]
  have hcr : child ≠ root := h.ne_root_of_parent h.top hG_child rfl
  have hcell_child : dropCells G root child H child = some ⟨H - 1, ⊥, ⊤, invalidPageId⟩ := by
    simp [dropCells, hcr]
  have hcell : ∀ {y c}, G y = some c → y ≠ root → y ≠ child →
      dropCells G root child H y = some c := by
    intro y c hy hyr hyc
    simp [dropCells, hyr, hyc, hy]
  -- nothing else is below the old root
  have honly : ∀ {y c}, G y = some c → c.parent = root → y = child := by
    intro y c hy hparent
    have hmem := (h.mem_spans h.top hq hy hparent).1
    simp only [harr, spans_cons, boundary_nil, spans_nil, List.mem_singleton] at hmem
    exact congrArg Prod.fst hmem
  have hbody : ∀ {y c} {page : TreePage K V}, G y = some c → y ≠ root → BodyOk ω G y c page →
      BodyOk ω (dropCells G root child H) y c page := by
    intro y c page hy hyr hbody
    refine hbody.congr (fun x e hx hparent _ => ?_) (fun x e hx hzero _ hlo => ?_)
    · refine hcell hx (h.ne_root_of_parent hy hx hparent) ?_
      rintro rfl
      cases hG_child.symm.trans hx
      exact hyr hparent.symm
    · by_cases hxc : x = child
      · subst hxc
        cases hG_child.symm.trans hx
        exact ⟨_, hcell_child, hzero, hlo⟩
      · refine ⟨e, hcell hx ?_ hxc, hzero, hlo⟩
        rintro rfl
        cases h.top.symm.trans hx
        exact absurd hzero hpos.ne'
  have hcases : ∀ {y c'}, dropCells G root child H y = some c' →
      y = child ∧ c' = ⟨H - 1, ⊥, ⊤, invalidPageId⟩ ∨
        y ≠ root ∧ y ≠ child ∧ G y = some c' := by
    intro y c' hy
    by_cases hyr : y = root
    · simp [dropCells, hyr] at hy
    · by_cases hyc : y = child
      · subst hyc
        rw [hcell_child] at hy
        cases hy
        exact Or.inl ⟨rfl, rfl⟩
      · simp only [dropCells, hyr, hyc, if_false] at hy
        exact Or.inr ⟨hyr, hyc, hy⟩
  have hall : (⊥ : B) < ⊤ := h.nonempty h.top
  refine ⟨hcell_child, ?_, ?_, ?_, ?_⟩
  · intro y c' hy
    rcases hcases hy with ⟨rfl, rfl⟩ | ⟨hyr, hyc, hy⟩
    · obtain ⟨page, hpage, hok⟩ := h.page hG_child
      refine ⟨page.setParentPageId invalidPageId, ?_, ?_, ?_, ?_⟩
      · rw [hchild, hpage]
        rfl
      · rw [getPageId_setParentPageId]
        exact hok.pageId
      · rw [getParentPageId_setParentPageId]
      · exact (hbody hG_child hcr hok.body).setParentPageId _ invalidPageId
    · obtain ⟨page, hpage, hok⟩ := h.page hy
      exact ⟨page, (hsame y _ hy hyr hyc).trans hpage, hok.pageId, hok.parent,
        hbody hy hyr hok.body⟩
  · intro y c' hy
    rcases hcases hy with ⟨-, rfl⟩ | ⟨-, -, hy⟩
    · exact hall
    · exact h.nonempty hy
  · intro y c' hy
    rcases hcases hy with ⟨rfl, -⟩ | ⟨-, -, hy⟩
    · exact h.positive hG_child
    · exact h.positive hy
  · intro y c' hy hyne
    rcases hcases hy with ⟨rfl, -⟩ | ⟨hyr, hyc, hy⟩
    · exact absurd rfl hyne
    · obtain ⟨hlt, d, u, hd, hheight, hu, hmem⟩ := h.linked hy hyr
      have hdr : c'.parent ≠ root := fun heq => hyc (honly hy heq)
      have hdlt := (h.linked hd hdr).1
      refine ⟨by omega, ?_⟩
      by_cases hdc : c'.parent = child
      · rw [hdc] at hd hu ⊢
        cases hG_child.symm.trans hd
        refine ⟨_, { u with parentPageId := invalidPageId }, hcell_child, hheight, ?_, hmem⟩
        rw [hchild, hu]
        rfl
      · exact ⟨d, u, hcell hd hdr hdc, hheight, (hsame _ _ hd hdr hdc).trans hu, hmem⟩

end Shape

end BPlusTree

end ScuDb
