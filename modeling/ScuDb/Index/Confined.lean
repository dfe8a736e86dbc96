import ScuDb.Index.WatchedAccess

/-!
The climb back up, confined to the pages that are held.

A page that overflows or runs short was not safe when the descent came by,
so the page above it is still held. By induction the climb stays below
the page that was found to be safe last, and below that page nothing has
been released.
-/

namespace ScuDb

open Foundations BPlusTree

variable {K V : Type}

namespace Watched

/-! ### What a descent leaves behind -/

/-- Where a descent has released the pages above `top`: no page below `top`
is released, and if anything is, then `top` is safe. -/
structure Course (op : OpType) (pages : Pages K V) (root top : PageId) (g : Watch) : Prop where
  rooted : Rooted pages root g.firstNew
  place : ∃ d, Below pages root d top
  free : ∀ {n y}, Below pages top n y → y ∉ g.released
  given : ∀ y ∈ g.released, y < g.firstNew
  mode : (top = root ∧ g.rootReleased = false) ∨
    (top ≠ root ∧ ∃ page, pages top = some page ∧ page.isSafe op = .ok true)

/-- A new page, or one that is more than `j` levels below `top`. -/
def Lower (pages : Pages K V) (top : PageId) (g : Watch) (j : Nat) : Set PageId :=
  {y | g.firstNew ≤ y ∨ ∃ k, j < k ∧ Below pages top k y}

theorem lower_subset {pages : Pages K V} {top : PageId} {g : Watch} {i j : Nat} (hij : i ≤ j) :
    Lower pages top g j ⊆ Lower pages top g i := by
  rintro y (hnew | ⟨k, hk, hy⟩)
  · exact Or.inl hnew
  · exact Or.inr ⟨k, hij.trans_lt hk, hy⟩

/-- The page `p` of level `j`, and what is further down. -/
def Around (pages : Pages K V) (top : PageId) (g : Watch) (j : Nat) (p : PageId) : Set PageId :=
  {y | y = p ∨ y ∈ Lower pages top g j}

namespace Course

variable {op : OpType} {pages : Pages K V} {root top x y : PageId} {g : Watch} {i j k : Nat}

theorem free_lower (hc : Course op pages root top g) (h : y ∈ Lower pages top g j) :
    y ∉ g.released := by
  rcases h with hnew | ⟨k, -, hy⟩
  · exact fun hmem => absurd (hc.given y hmem) (not_lt.mpr hnew)
  · exact hc.free hy

theorem not_lower (hc : Course op pages root top g) (hy : Below pages top k y) (hk : k ≤ j) :
    y ∉ Lower pages top g j := by
  obtain ⟨d, hd⟩ := hc.place
  rintro (hnew | ⟨m, hm, hy'⟩)
  · exact absurd (hc.rooted.fresh (hd.trans hy)) (not_lt.mpr hnew)
  · have hsame := hc.rooted.depth_unique (hd.trans hy) (hd.trans hy')
    omega

theorem ne_of_level_ne (hc : Course op pages root top g) (hx : Below pages top i x)
    (hy : Below pages top j y) (hij : i ≠ j) : x ≠ y := by
  rintro rfl
  obtain ⟨d, hd⟩ := hc.place
  have hsame := hc.rooted.depth_unique (hd.trans hx) (hd.trans hy)
  omega

theorem eq_root (hc : Course op pages root top g) {old : TreePage K V}
    (hx : Below pages top j x) (hold : pages x = some old)
    (hroot : old.getParentPageId = invalidPageId) : x = root := by
  obtain ⟨d, hd⟩ := hc.place
  have hplace := hd.trans hx
  generalize d + j = n at hplace
  cases hplace with
  | self => rfl
  | child hp hq he =>
      exact absurd ((hc.rooted.parent hp hq he hold).symm.trans hroot) (hc.rooted.ne_invalid hp)

/-- As long as the climb gets to the root, the root lock is held. -/
theorem rootReleased_eq (hc : Course op pages root top g) {old : TreePage K V}
    (hx : Below pages top j x) (hold : pages x = some old)
    (hroot : old.getParentPageId = invalidPageId) : g.rootReleased = false := by
  have hxr := hc.eq_root hx hold hroot
  rcases hc.mode with ⟨-, hrel⟩ | ⟨htop, -⟩
  · exact hrel
  · -- Then `top` is below the root, which is below `top`.
    obtain ⟨d, hd⟩ := hc.place
    rw [hxr] at hx
    have hsame := hc.rooted.depth_unique (hd.trans hx) .self
    have hzero : d = 0 := by omega
    rw [hzero] at hd
    cases hd
    exact absurd rfl htop

theorem exists_parent (hc : Course op pages root top g) {old : TreePage K V}
    (hx : Below pages top j x) (hold : pages x = some old)
    (hroot : old.getParentPageId ≠ invalidPageId) (hnotsafe : old.isSafe op ≠ .ok true) :
    ∃ i q, j = i + 1 ∧ Below pages top i old.getParentPageId ∧
      pages old.getParentPageId = some (.internal q) ∧ x ∈ q.array.map Prod.snd := by
  cases hx with
  | self =>
      rcases hc.mode with ⟨rfl, -⟩ | ⟨-, page, hpage, hsafe⟩
      · exact absurd (hc.rooted.rootParent hold) hroot
      · cases hold.symm.trans hpage
        exact absurd hsafe hnotsafe
  | @child i p q e hp hq he =>
      obtain ⟨d, hd⟩ := hc.place
      have hparent := hc.rooted.parent (hd.trans hp) hq he hold
      rw [hparent]
      exact ⟨i, q, rfl, hp, hq, List.mem_map_of_mem he⟩

end Course

/-- The header points to the parent as before, and the entries to pages
further down. -/
structure Fits (pages : Pages K V) (top : PageId) (g : Watch) (j : Nat) (y : PageId)
    (page : TreePage K V) : Prop where
  parent : ∀ old, pages y = some old → page.getParentPageId = old.getParentPageId
  lower : ∀ q, page = .internal q → ∀ id ∈ q.array.map Prod.snd, id ∈ Lower pages top g j

/-- The climb has come to level `j` below `top`: nothing above this level
has changed, and on it nothing of importance. -/
structure Steady (pages : Pages K V) (top : PageId) (g : Watch) (j : Nat)
    (w : BPlusTree K V × Watch) : Prop where
  watch : w.2 = g
  next : g.firstNew ≤ w.1.nextPageId
  free : ∀ y ∈ w.1.pageSet, y ∉ g.released
  above : ∀ {k y}, Below pages top k y → k < j → w.1.pages y = pages y
  level : ∀ {y page}, Below pages top j y → w.1.pages y = some page → Fits pages top g j y page

/-- The pages from `top` down to `x` are in the page set. -/
def PathHeld (pages : Pages K V) (top x : PageId) (set : List PageId) : Prop :=
  ∀ m k y, Below pages top m y → Below pages y k x → y ∈ set

theorem PathHeld.subset {pages : Pages K V} {top x : PageId} {set set' : List PageId}
    (h : PathHeld pages top x set) (hset : set ⊆ set') : PathHeld pages top x set' :=
  fun m k y hm hk => hset (h m k y hm hk)

/-- From a page on the path up to its parent. -/
theorem PathHeld.parent {pages : Pages K V} {top x p : PageId} {q : InternalPage K}
    {set : List PageId} (h : PathHeld pages top x set) (hq : pages p = some (.internal q))
    (hx : x ∈ q.array.map Prod.snd) : PathHeld pages top p set := by
  obtain ⟨e, he, rfl⟩ := List.mem_map.mp hx
  exact fun m k y hm hk => h m (k + 1) y hm (hk.child hq he)

section Climb

variable {op : OpType} {pages : Pages K V} {root top x y p : PageId} {g : Watch} {i j : Nat}
  {w w' : BPlusTree K V × Watch} {T : Set PageId}

theorem Within.free_of_mem (h : Within T w w') (hg : w.2 = g)
    (hfree : ∀ y ∈ w.1.pageSet, y ∉ g.released) : ∀ y ∈ w'.1.pageSet, y ∉ g.released := by
  intro y hy
  rcases h.added y hy with hold | hnew
  · exact hfree y hold
  · rwa [hg] at hnew

theorem Fits.of_below {page : TreePage K V} (hy : Below pages top j y)
    (hpage : pages y = some page) : Fits pages top g j y page where
  parent old hold := by
    cases hpage.symm.trans hold
    rfl
  lower q hq id hid := by
    subst hq
    obtain ⟨e, he, rfl⟩ := List.mem_map.mp hid
    exact Or.inr ⟨j + 1, Nat.lt_succ_self j, hy.child hpage he⟩

theorem Fits.leaf {page leaf : LeafPage K V} (h : Fits pages top g j y (.leaf page))
    (hparent : leaf.parentPageId = page.parentPageId) : Fits pages top g j y (.leaf leaf) where
  parent old hold := hparent.trans (h.parent old hold)
  lower _ hq := by cases hq

theorem Fits.internal {page q : InternalPage K}
    (h : Fits pages top g j y (.internal page : TreePage K V))
    (hparent : q.parentPageId = page.parentPageId)
    (hlower : ∀ id ∈ q.array.map Prod.snd, id ∈ Lower pages top g j) :
    Fits pages top g j y (.internal q) where
  parent old hold := hparent.trans (h.parent old hold)
  lower _ hq := by
    cases hq
    exact hlower

/-- The climb goes on one level further up. -/
theorem Steady.up (h : Steady pages top g (j + 1) w) : Steady pages top g j w where
  watch := h.watch
  next := h.next
  free := h.free
  above hy hk := h.above hy (hk.trans (Nat.lt_succ_self j))
  level hy hpage := by
    rw [h.above hy (Nat.lt_succ_self j)] at hpage
    exact Fits.of_below hy hpage

/-- Changes to one page of a level and to pages further down are none to
the levels above. -/
theorem Steady.within (h : Steady pages top g j w) (hc : Course op pages root top g)
    (hp : Below pages top j p) (hw : Within (Around pages top g j p) w w')
    (hfits : ∀ page, w'.1.pages p = some page → Fits pages top g j p page) :
    Steady pages top g j w' where
  watch := hw.watch.trans h.watch
  next := h.next.trans hw.next
  free := hw.free_of_mem h.watch h.free
  above {k y} hy hk := by
    rw [hw.pages y, h.above hy hk]
    rintro (rfl | hlow)
    · exact hc.ne_of_level_ne hy hp hk.ne rfl
    · exact hc.not_lower hy hk.le hlow
  level {y page} hy hpage := by
    by_cases hyp : y = p
    · subst hyp
      exact hfits page hpage
    · rw [hw.pages y fun hmem => hmem.elim hyp (hc.not_lower hy le_rfl)] at hpage
      exact h.level hy hpage

/-- Where the climb ends, the root lock is held. -/
theorem Steady.rootReleased_eq (h : Steady pages top g j w) (hc : Course op pages root top g)
    (hx : Below pages top j x) {page : TreePage K V} (hpage : w.1.pages x = some page)
    (hroot : page.isRootPage = true) : g.rootReleased = false := by
  obtain ⟨d, hd⟩ := hc.place
  obtain ⟨old, hold⟩ := hc.rooted.present (hd.trans hx)
  have hparent := (h.level hx hpage).parent old hold
  exact hc.rootReleased_eq hx hold (hparent.symm.trans (of_decide_eq_true hroot))

/-- Where it goes on, the parent is below `top` and has not changed yet. -/
theorem Steady.exists_parent (h : Steady pages top g j w) (hc : Course op pages root top g)
    (hx : Below pages top j x) {page : TreePage K V} (hpage : w.1.pages x = some page)
    (hroot : ¬page.isRootPage = true)
    (hnotsafe : ∀ old, pages x = some old → old.isSafe op ≠ .ok true) :
    ∃ i q, j = i + 1 ∧ Below pages top i page.getParentPageId ∧
      pages page.getParentPageId = some (.internal q) ∧
      w.1.pages page.getParentPageId = some (.internal q) ∧ x ∈ q.array.map Prod.snd := by
  obtain ⟨d, hd⟩ := hc.place
  obtain ⟨old, hold⟩ := hc.rooted.present (hd.trans hx)
  have hparent := (h.level hx hpage).parent old hold
  have hvalid : old.getParentPageId ≠ invalidPageId := by
    rw [← hparent]
    exact fun heq => hroot (decide_eq_true heq)
  obtain ⟨i, q, rfl, hp, hq, hxq⟩ := hc.exists_parent hx hold hvalid (hnotsafe old hold)
  rw [← hparent] at hp hq
  exact ⟨i, q, rfl, hp, hq, (h.above hp (Nat.lt_succ_self i)).trans hq, hxq⟩

/-- Where only pages have been fetched and latched the climb stands where it stood. -/
theorem Steady.idle (h : Steady pages top g j w) (hw : Within ∅ w w') :
    Steady pages top g j w' where
  watch := hw.watch.trans h.watch
  next := h.next.trans hw.next
  free := hw.free_of_mem h.watch h.free
  above hy hk := (hw.pages _ (Set.notMem_empty _)).trans (h.above hy hk)
  level hy hpage := by
    rw [hw.pages _ (Set.notMem_empty _)] at hpage
    exact h.level hy hpage

end Climb

end Watched

end ScuDb
