import ScuDb.Index.Splitting

/-!
Merging two neighbouring pages, and moving one entry between them.

These are the changes `Coalesce` and `Redistribute` make, as regroupings
of the two children of a page. `Pair` says that two pages are neighbours;
the new contents of the pages are given as functions of the old ones.
-/

namespace ScuDb

open Foundations

variable {K V B : Type} [LinearOrder B] [BoundedOrder B]

namespace BPlusTree

/-! ### New contents -/

/-- The left page after a merge. -/
def mergedPage : TreePage K V → TreePage K V → TreePage K V
  | .leaf L, .leaf R =>
      .leaf { L with array := L.array ++ R.array, nextPageId := R.nextPageId }
  | .internal L, .internal R => .internal { L with array := L.array ++ R.array }
  | L, _ => L

/-- The left page when, of the entries of both, the first `n` are its. -/
def leftShare (n : Nat) : TreePage K V → TreePage K V → TreePage K V
  | .leaf L, .leaf R => .leaf { L with array := (L.array ++ R.array).take n }
  | .internal L, .internal R => .internal { L with array := (L.array ++ R.array).take n }
  | L, _ => L

/-- The right page when, of the entries of both, all but the first `n` are its. -/
def rightShare (n : Nat) : TreePage K V → TreePage K V → TreePage K V
  | .leaf L, .leaf R => .leaf { R with array := (L.array ++ R.array).drop n }
  | .internal L, .internal R => .internal { R with array := (L.array ++ R.array).drop n }
  | _, R => R

/-- Two pages of one height are of one kind. -/
def SameKind (pl pr : TreePage K V) : Prop := pl.isLeafPage = pr.isLeafPage

section Contents

variable {pl pr : TreePage K V} {n : Nat}

theorem mem_entries_merged (h : SameKind pl pr) (e : K × V) :
    e ∈ entries (some (mergedPage pl pr)) ↔ e ∈ entries (some pl) ∨ e ∈ entries (some pr) := by
  cases pl <;> cases pr <;> simp_all [SameKind, TreePage.isLeafPage, mergedPage]

theorem mem_entries_shares (h : SameKind pl pr) (n : Nat) (e : K × V) :
    e ∈ entries (some (leftShare n pl pr)) ∨ e ∈ entries (some (rightShare n pl pr)) ↔
      e ∈ entries (some pl) ∨ e ∈ entries (some pr) := by
  cases pl with
  | leaf L =>
      cases pr with
      | leaf R =>
          simp only [leftShare, rightShare, entries_leaf]
          rw [← List.mem_append, List.take_append_drop, List.mem_append]
      | internal R => cases h
  | internal L =>
      cases pr with
      | leaf R => cases h
      | internal R => simp [leftShare, rightShare]

theorem getSize_merged (h : SameKind pl pr) :
    (mergedPage pl pr).getSize = pl.getSize + pr.getSize := by
  cases pl <;> cases pr <;>
    simp_all [SameKind, TreePage.isLeafPage, mergedPage, TreePage.getSize]

theorem getSize_leftShare (h : SameKind pl pr) (hn : n ≤ pl.getSize + pr.getSize) :
    (leftShare n pl pr).getSize = n := by
  cases pl <;> cases pr <;>
    simp_all [SameKind, TreePage.isLeafPage, leftShare, TreePage.getSize]

theorem getSize_rightShare (h : SameKind pl pr) :
    (rightShare n pl pr).getSize = pl.getSize + pr.getSize - n := by
  cases pl <;> cases pr <;>
    simp_all [SameKind, TreePage.isLeafPage, rightShare, TreePage.getSize]

theorem header_merged : (mergedPage pl pr).header = pl.header := by
  cases pl <;> cases pr <;> rfl

theorem header_leftShare : (leftShare n pl pr).header = pl.header := by
  cases pl <;> cases pr <;> rfl

theorem header_rightShare : (rightShare n pl pr).header = pr.header := by
  cases pl <;> cases pr <;> rfl

end Contents

/-! ### Neighbours -/

variable (ω : OrderedIndex K B)

/-- The pages `l` and `r` stand next to each other in the page `q`, which
is `p`, with the separator `s` between them. -/
structure Pair (pages : Pages K V) (G : Cells B) (root : PageId) (H : Nat) (p : PageId)
    (before : List (K × PageId)) (k : K) (l : PageId) (s : K) (r : PageId)
    (after : List (K × PageId)) (d : Cell B) (q : InternalPage K) (pl pr : TreePage K V) :
    Prop where
  shape : Shape ω pages G root H
  parent : G p = some d
  page : pages p = some (.internal q)
  array : q.array = before ++ (k, l) :: (s, r) :: after
  left : pages l = some pl
  right : pages r = some pr

/-- The regrouping of two neighbours. -/
def pairCut (p : PageId) (before : List (K × PageId)) (k : K) (l : PageId) (s : K) (r : PageId)
    (after : List (K × PageId)) (new : Option K) (moved : List PageId) (target : PageId) :
    Regroup K where
  parent := p
  before := before
  key := k
  left := l
  right := r
  after := after
  old := some s
  new := new
  moved := moved
  target := target

namespace Pair

variable {ω} {pages pages' : Pages K V} {G : Cells B} {root : PageId} {H : Nat} {p : PageId}
  {before : List (K × PageId)} {k : K} {l : PageId} {s : K} {r : PageId}
  {after : List (K × PageId)} {d : Cell B} {q : InternalPage K} {pl pr : TreePage K V}

theorem ids_nodup (h : Pair ω pages G root H p before k l s r after d q pl pr) :
    (before.map Prod.snd ++ l :: r :: after.map Prod.snd).Nodup := by
  have hnodup := h.shape.children_nodup h.parent h.page
  rw [h.array] at hnodup
  simpa using hnodup

theorem left_ne_right (h : Pair ω pages G root H p before k l s r after d q pl pr) : r ≠ l := by
  have hnodup := (List.nodup_append.mp h.ids_nodup).2.1
  rintro rfl
  exact (List.nodup_cons.mp hnodup).1 List.mem_cons_self

theorem right_cell (h : Pair ω pages G root H p before k l s r after d q pl pr) :
    ∃ c, G r = some c ∧ c.parent = p ∧ c.height + 1 = d.height := by
  have hmem : r ∈ childIds (.internal q : TreePage K V) := by simp [childIds, h.array]
  obtain ⟨c, hc, hparent, hheight⟩ := h.shape.child_cell h.parent h.page hmem
  exact ⟨c, hc, hparent, hheight⟩

theorem left_cell (h : Pair ω pages G root H p before k l s r after d q pl pr) :
    ∃ c, G l = some c ∧ c.parent = p ∧ c.height + 1 = d.height := by
  have hmem : l ∈ childIds (.internal q : TreePage K V) := by simp [childIds, h.array]
  obtain ⟨c, hc, hparent, hheight⟩ := h.shape.child_cell h.parent h.page hmem
  exact ⟨c, hc, hparent, hheight⟩

theorem neighbours (h : Pair ω pages G root H p before k l s r after d q pl pr)
    (new : Option K) (moved : List PageId) (target : PageId)
    (hmoved : ∀ y ∈ moved, y ∈ childIds pl ∨ y ∈ childIds pr) :
    Neighbours ω pages G root H (pairCut p before k l s r after new moved target) d q := by
  obtain ⟨cr, hcr, -⟩ := h.right_cell
  obtain ⟨cl, hcl, -⟩ := h.left_cell
  refine ⟨h.shape, h.parent, h.page, ?_, fun hold => (by cases hold), h.shape.positive hcr,
    h.left_ne_right, fun y hy => ?_⟩
  · simp [pairCut, Regroup.array, Regroup.slots, h.array]
  · rcases hmoved y hy with hy | hy
    · obtain ⟨e, he, hparent, -⟩ := h.shape.child_cell hcl h.left hy
      exact ⟨e, he, Or.inl hparent⟩
    · obtain ⟨e, he, hparent, -⟩ := h.shape.child_cell hcr h.right hy
      exact ⟨e, he, Or.inr hparent⟩

/-- Pages with the same parent have the same height, so they are of one kind. -/
theorem sameKind (h : Pair ω pages G root H p before k l s r after d q pl pr) :
    SameKind pl pr := by
  obtain ⟨cl, hcl, -, hl⟩ := h.left_cell
  obtain ⟨cr, hcr, -, hr⟩ := h.right_cell
  have hleft := h.left
  have hright := h.right
  cases pl with
  | leaf L =>
      cases pr with
      | leaf R => rfl
      | internal R =>
          have hzero := (h.shape.leafOk hcl hleft).height
          have hpos := (h.shape.internalOk hcr hright).height
          omega
  | internal L =>
      cases pr with
      | leaf R =>
          have hpos := (h.shape.internalOk hcl hleft).height
          have hzero := (h.shape.leafOk hcr hright).height
          omega
      | internal R => rfl

theorem leaf_entries {L R : LeafPage K V}
    (h : Pair ω pages G root H p before k l s r after d q (.leaf L) (.leaf R))
    {new : Option K} {target : PageId}
    (cut : Regroup K) (hcut : cut = pairCut p before k l s r after new [] target) :
    d.height = 1 ∧
      SortedWithin ω.rank ω.keys (cut.lower ω.rank d) (cut.upper ω.rank d)
        (L.array ++ R.array) ∧
      LinkOk G (cut.upper ω.rank d) R.nextPageId ∧ L.nextPageId = r ∧
      L.toPageHeader = ⟨l, p, LeafPage.initMaxSize ω.keySize⟩ ∧
      R.toPageHeader = ⟨r, p, LeafPage.initMaxSize ω.keySize⟩ := by
  have hN : Neighbours ω pages G root H cut d q := hcut ▸ h.neighbours new [] target (by simp)
  have hold : cut.old = some s := by rw [hcut]; rfl
  have hcl : G l = some (cut.leftCell ω.rank d (some s)) := by
    have hmem := hN.left_mem
    rw [hold] at hmem
    rw [hcut] at hmem ⊢
    exact hmem
  have hcr : G r = some (cut.rightCell ω.rank d s) := by
    have hmem := hN.right_mem hold
    rw [hcut] at hmem ⊢
    exact hmem
  obtain ⟨page, hpage, hokl⟩ := h.shape.page hcl
  cases h.left.symm.trans hpage
  obtain ⟨page, hpage, hokr⟩ := h.shape.page hcr
  cases h.right.symm.trans hpage
  have hL : LeafOk ω G (cut.leftCell ω.rank d (some s)) L := hokl.body
  have hR : LeafOk ω G (cut.rightCell ω.rank d s) R := hokr.body
  have hp : cut.parent = p := by rw [hcut]; rfl
  have hpos := hN.parent_height
  have hzero : d.height - 1 = 0 := hL.height
  refine ⟨by omega, ?_, hR.next, ?_, ?_, ?_⟩
  · exact hL.entries.append hR.entries (h.shape.nonempty hcl).le (h.shape.nonempty hcr).le
  · -- the left leaf links to the leaf that starts where it ends, which is `r`
    rcases hL.next with ⟨htop, -⟩ | ⟨-, e, he, hezero, helo⟩
    · exact absurd htop (ω.ranked.lt_top (hN.old_separator_mem hold)).ne
    · have hb := h.shape.nonempty hcr
      have hb' := h.shape.nonempty he
      have helo' : e.lo = ω.rank s := helo
      refine h.shape.unique he hcr (hezero.trans hR.height.symm) (b := ω.rank s)
        ⟨helo'.le, helo' ▸ hb'⟩ ⟨le_rfl, hb⟩
  · rw [hokl.leaf_header, ← hp]
    rfl
  · rw [hokr.leaf_header, ← hp]
    rfl

theorem internal_family {L R : InternalPage K}
    (h : Pair ω pages G root H p before k l s r after d q (.internal L) (.internal R))
    (new : Option K) (moved : List PageId) (target : PageId)
    (hmoved : ∀ y ∈ moved, y ∈ childIds (.internal L : TreePage K V) ∨
      y ∈ childIds (.internal R : TreePage K V))
    (cut : Regroup K) (hcut : cut = pairCut p before k l s r after new moved target) :
    Family ω G cut d (L.array ++ R.array) ∧ (∃ c rest, R.array = (s, c) :: rest) ∧
      L.array ≠ [] ∧
      L.toPageHeader = ⟨l, p, InternalPage.initMaxSize ω.keySize⟩ ∧
      R.toPageHeader = ⟨r, p, InternalPage.initMaxSize ω.keySize⟩ ∧
      (∀ e ∈ L.array, ∀ c, G e.2 = some c → c.parent = l) ∧
      (∀ e ∈ R.array, ∀ c, G e.2 = some c → c.parent = r) ∧
      (L.array.map Prod.snd ++ R.array.map Prod.snd).Nodup := by
  have hN : Neighbours ω pages G root H cut d q := hcut ▸ h.neighbours new moved target hmoved
  have hold : cut.old = some s := by rw [hcut]; rfl
  have hleft : pages cut.left = some (.internal L) := by rw [hcut]; exact h.left
  have hright : pages cut.right = some (.internal R) := by rw [hcut]; exact h.right
  obtain ⟨cl, hcl, hpl, -⟩ := h.left_cell
  obtain ⟨cr, hcr, hpr, -⟩ := h.right_cell
  obtain ⟨page, hpage, hokl⟩ := h.shape.page hcl
  cases h.left.symm.trans hpage
  obtain ⟨page, hpage, hokr⟩ := h.shape.page hcr
  cases h.right.symm.trans hpage
  have hchild : ∀ {x : PageId} {c : Cell B} {X : InternalPage K}, G x = some c →
      pages x = some (.internal X) → ∀ e ∈ X.array, ∀ c', G e.2 = some c' → c'.parent = x := by
    intro x c X hx hX e he c' hc'
    obtain ⟨c₂, hc₂, hparent, -⟩ := h.shape.child_cell hx hX (y := e.2) (List.mem_map_of_mem he)
    cases hc'.symm.trans hc₂
    exact hparent
  have hchild_l := hchild hcl h.left
  have hchild_r := hchild hcr h.right
  refine ⟨hN.family_both hold hleft hright, hN.right_head hold hright,
    (hokl.body : InternalOk ω G l cl L).nonempty, ?_, ?_, hchild_l, hchild_r, ?_⟩
  · rw [hokl.internal_header, hpl]
  · rw [hokr.internal_header, hpr]
  · refine List.nodup_append.mpr ⟨h.shape.children_nodup hcl h.left,
      h.shape.children_nodup hcr h.right, ?_⟩
    rintro a ha b hb rfl
    obtain ⟨e, he, rfl⟩ := List.mem_map.mp ha
    obtain ⟨f, hf, hfe⟩ := List.mem_map.mp hb
    obtain ⟨c, hc, -⟩ := h.shape.child_cell hcl h.left (y := e.2) (List.mem_map_of_mem he)
    have hl := hchild_l e he c hc
    have hr := hchild_r f hf c (hfe ▸ hc)
    exact h.left_ne_right (hr.symm.trans hl)

/-- The right page is merged into the left one. -/
theorem merge (h : Pair ω pages G root H p before k l s r after d q pl pr)
    (hp : pages' p = some (.internal { q with array := before ++ (k, l) :: after }))
    (hl : pages' l = some (mergedPage pl pr))
    (hm : ∀ y ∈ childIds pr, pages' y = (pages y).map (·.setParentPageId l))
    (hsame : ∀ y e, G y = some e → y ≠ p → y ≠ l → y ≠ r → y ∉ childIds pr →
      pages' y = pages y) :
    Regroups ω pages pages' G root H
      (pairCut p before k l s r after none (childIds pr) l) d q := by
  have hkind := h.sameKind
  have hN := h.neighbours none (childIds pr) l fun y hy => Or.inr hy
  have hp' : pages' p = some (.internal { q with
      array := (pairCut p before k l s r after none (childIds pr) l).array none }) := by
    rw [hp]
    rfl
  cases pl with
  | leaf L =>
      cases pr with
      | internal R => cases hkind
      | leaf R =>
          obtain ⟨hheight, hentries, hlink, -, hlh, -⟩ := h.leaf_entries _ rfl
          exact hN.mergeLeaves hheight rfl rfl hl hlh hentries hlink hp'
            fun y e hy hyp hyl hyr => hsame y e hy hyp hyl hyr (by simp [childIds])
  | internal L =>
      cases pr with
      | leaf R => cases hkind
      | internal R =>
          obtain ⟨fam, -, hne, hlh, -, hcl, -, hnodup⟩ := h.internal_family none
            (childIds (.internal R : TreePage K V)) l (fun y hy => Or.inr hy) _ rfl
          refine hN.mergeInternals fam rfl hl hlh rfl (by simp [hne]) ?_ hp' hm hsame
          intro e he c hc
          rcases List.mem_append.mp he with he | he
          · have hnot : e.2 ∉ childIds (.internal R : TreePage K V) := fun hmem =>
              (List.nodup_append.mp hnodup).2.2 e.2 (List.mem_map_of_mem he) e.2 hmem rfl
            simp only [Regroup.newParent, pairCut, hnot, if_false]
            exact hcl e he c hc
          · have hmem : e.2 ∈ childIds (.internal R : TreePage K V) := List.mem_map_of_mem he
            simp [Regroup.newParent, pairCut, hmem]

/-- The entries of both pages are shared out anew, `n` of them to the left. -/
theorem share (h : Pair ω pages G root H p before k l s r after d q pl pr) {n : Nat}
    {moved : List PageId} {target : PageId} {s' : K}
    (hkey : firstKey (rightShare n pl pr) = some s') (hn : 0 < n)
    (hmoved : ∀ y ∈ moved, y ∈ childIds pl ∨ y ∈ childIds pr)
    (hpl : ∀ y ∈ (childIds pl ++ childIds pr).take n,
      y ∈ moved ∧ target = l ∨ y ∉ moved ∧ y ∈ childIds pl)
    (hpr : ∀ y ∈ (childIds pl ++ childIds pr).drop n,
      y ∈ moved ∧ target = r ∨ y ∉ moved ∧ y ∈ childIds pr)
    (hp : pages' p = some (.internal { q with
      array := before ++ (k, l) :: (s', r) :: after }))
    (hl : pages' l = some (leftShare n pl pr)) (hr : pages' r = some (rightShare n pl pr))
    (hm : ∀ y ∈ moved, pages' y = (pages y).map (·.setParentPageId target))
    (hsame : ∀ y e, G y = some e → y ≠ p → y ≠ l → y ≠ r → y ∉ moved → pages' y = pages y) :
    Regroups ω pages pages' G root H
      (pairCut p before k l s r after (some s') moved target) d q := by
  have hkind := h.sameKind
  have hN := h.neighbours (some s') moved target hmoved
  have hp' : pages' p = some (.internal { q with
      array := (pairCut p before k l s r after (some s') moved target).array (some s') }) := by
    rw [hp]
    rfl
  cases pl with
  | leaf L =>
      cases pr with
      | internal R => cases hkind
      | leaf R =>
          have hnil : moved = [] := by
            refine List.eq_nil_iff_forall_not_mem.mpr fun y hy => ?_
            rcases hmoved y hy with hy | hy <;> simp [childIds] at hy
          subst hnil
          obtain ⟨hheight, hentries, hlink, hnext, hlh, hrh⟩ := h.leaf_entries _ rfl
          have hcat : ((L.array ++ R.array).take n) ++ ((L.array ++ R.array).drop n) =
              L.array ++ R.array := List.take_append_drop _ _
          cases hdrop : (L.array ++ R.array).drop n with
          | nil => simp [firstKey, rightShare, hdrop] at hkey
          | cons e rest =>
              simp only [firstKey, rightShare, hdrop, List.head?_cons, Option.map_some,
                Option.some_inj] at hkey
              refine hN.shareLeaves hheight rfl rfl hl hr hlh hrh ?_ ?_ ?_ hnext hlink hp' ?_
              · intro hnil
                have hlen := congrArg List.length hcat
                have htake := congrArg List.length hnil
                have hdlen := congrArg List.length hdrop
                simp only [List.length_take, List.length_nil, List.length_append,
                  List.length_drop, List.length_cons] at htake hlen hdlen
                omega
              · exact ⟨e.2, rest, by simp only [hdrop, ← hkey]⟩
              · change SortedWithin ω.rank ω.keys _ _
                  ((L.array ++ R.array).take n ++ (L.array ++ R.array).drop n)
                rw [hcat]
                exact hentries
              · exact fun y e hy hyp hyl hyr => hsame y e hy hyp hyl hyr (by simp)
  | internal L =>
      cases pr with
      | leaf R => cases hkind
      | internal R =>
          obtain ⟨fam, -, hne, hlh, hrh, hcl, hcr, -⟩ :=
            h.internal_family (some s') moved target hmoved _ rfl
          have hids : childIds (.internal L : TreePage K V) ++
              childIds (.internal R : TreePage K V) = (L.array ++ R.array).map Prod.snd := by
            simp [childIds]
          rw [hids] at hpl hpr
          have hcat : L.array ++ R.array =
              ((L.array ++ R.array).take n) ++ ((L.array ++ R.array).drop n) :=
            (List.take_append_drop _ _).symm
          have hof_child : ∀ {X : InternalPage K} {x y : PageId},
              (∀ e ∈ X.array, ∀ c, G e.2 = some c → c.parent = x) →
              y ∈ childIds (.internal X : TreePage K V) → ∀ c, G y = some c → c.parent = x := by
            intro X x y hX hy c hc
            obtain ⟨e, he, rfl⟩ := List.mem_map.mp hy
            exact hX e he c hc
          cases hdrop : (L.array ++ R.array).drop n with
          | nil => simp [firstKey, rightShare, hdrop] at hkey
          | cons e rest =>
              simp only [firstKey, rightShare, hdrop, List.head?_cons, Option.map_some,
                Option.some_inj] at hkey
              refine hN.shareInternals fam rfl hl hr hlh hrh hcat ?_ ?_ ?_ ?_ hp' hm hsame
              · intro hnil
                have hlen := congrArg List.length hcat
                have htake := congrArg List.length hnil
                have hdlen := congrArg List.length hdrop
                simp only [List.length_take, List.length_nil, List.length_append,
                  List.length_drop, List.length_cons] at htake hlen hdlen
                omega
              · exact ⟨e.2, rest, by simp only [hdrop, ← hkey]⟩
              · intro e he c hc
                have hmem := hpl e.2 (by rw [← List.map_take]; exact List.mem_map_of_mem he)
                rcases hmem with ⟨hmem, htarget⟩ | ⟨hnot, hchild⟩
                · simp [Regroup.newParent, pairCut, hmem, htarget]
                · simp only [Regroup.newParent, pairCut, hnot, if_false]
                  exact hof_child hcl hchild c hc
              · intro e he c hc
                have hmem := hpr e.2 (by rw [← List.map_drop]; exact List.mem_map_of_mem he)
                rcases hmem with ⟨hmem, htarget⟩ | ⟨hnot, hchild⟩
                · simp [Regroup.newParent, pairCut, hmem, htarget]
                · simp only [Regroup.newParent, pairCut, hnot, if_false]
                  exact hof_child hcr hchild c hc

/-- The children of the two pages, one after the other, are all different. -/
theorem childIds_nodup (h : Pair ω pages G root H p before k l s r after d q pl pr) :
    (childIds pl ++ childIds pr).Nodup := by
  have hkind := h.sameKind
  cases pl with
  | leaf L =>
      cases pr with
      | internal R => cases hkind
      | leaf R => simp [childIds]
  | internal L =>
      cases pr with
      | leaf R => cases hkind
      | internal R =>
          obtain ⟨-, -, -, -, -, -, -, hnodup⟩ :=
            h.internal_family none [] l (by simp) _ rfl
          exact hnodup

end Pair

end BPlusTree

end ScuDb
