import ScuDb.Index.ConfinedInsertion
import ScuDb.Index.ConfinedRemoval
import ScuDb.Index.OutOfFrames
import ScuDb.Index.Structure

/-!
Latch crabbing releases pages only when it is safe.

A watched insertion or removal does what the unwatched one does, on every
well-formed tree. The descent keeps the pages from the last safe one on,
and everything below that page is still free to be fetched.
-/

namespace ScuDb

open Foundations BPlusTree

variable {K V : Type}

namespace Watched

/-! ### Giving the page set back -/

/-- The loop over the page set has come to `w`. -/
structure Emptying (w₀ w : BPlusTree K V × Watch) : Prop where
  watch : w.2 = w₀.2
  set : w.1.pageSet = w₀.1.pageSet
  next : w.1.nextPageId = w₀.1.nextPageId
  pages : w₀.1.deletedPageSet = [] → w.1.pages = w₀.1.pages ∧ w.1.deletedPageSet = []

section Emptying

variable {w₀ w : BPlusTree K V × Watch} {id : PageId}

theorem passes_freePage (h : Emptying w₀ w) (hid : id ∈ w₀.1.pageSet)
    (hfree : id ∉ w₀.2.released) :
    Passes (BPlusTree.freePage true id) (BPlusTree.freePage true id)
      (fun _ w' => Emptying w₀ w') w := by
  have hrecord : ∀ {w : BPlusTree K V × Watch} (call : PoolCall), Emptying w₀ w →
      Passes (BPlusTree.record call) (BPlusTree.record call) (fun _ w' => Emptying w₀ w') w :=
    fun call h => passes_modify ⟨h.watch, h.set, h.next, h.pages⟩
  unfold BPlusTree.freePage
  refine (hrecord _ h).bind fun _ w₁ h₁ => ?_
  refine (hrecord _ h₁).bind fun _ w₂ h₂ => ?_
  refine passes_get.bind ?_
  rintro t w₂ ⟨rfl, rfl⟩
  refine .ite (fun hmem => ?_) fun _ => .pure h₂
  have hfree₂ : id ∉ w₂.2.released := by rwa [h₂.watch]
  have hheld₂ : id ∈ w₂.1.pageSet ∨ w₂.2.firstNew ≤ id := Or.inl (by rwa [h₂.set])
  -- A descent has no page to delete, so it changes none here.
  have hdeleted : w₀.1.deletedPageSet ≠ [] := by
    intro hnil
    rw [(h₂.pages hnil).2] at hmem
    cases hmem
  refine Passes.bind (Q := fun _ w' => Emptying w₀ w') (.check hfree₂ (.check hheld₂ ?_))
    fun _ w₃ h₃ => ?_
  · refine passes_onTree ?_
    rw [BPlusTree.wlp_deletePage]
    exact ⟨h₂.watch, h₂.set, h₂.next, fun hnil => absurd hnil hdeleted⟩
  · exact passes_modify ⟨h₃.watch, h₃.set, h₃.next, fun hnil => absurd hnil hdeleted⟩

theorem passes_freePagesInTransaction (hfree : ∀ y ∈ w.1.pageSet, y ∉ w.2.released)
    (cur : PageId) :
    Passes (BPlusTree.freePagesInTransaction true true cur)
      (BPlusTree.freePagesInTransaction true true cur)
      (fun _ w' => w'.2 = w.2 ∧ w'.1.nextPageId = w.1.nextPageId ∧ w'.1.pageSet = [] ∧
        (w.1.deletedPageSet = [] → w'.1.pages = w.1.pages ∧ w'.1.deletedPageSet = [])) w := by
  unfold BPlusTree.freePagesInTransaction
  simp only [Bool.true_eq_false, if_false]
  refine Passes.bind (Q := fun _ w' => Emptying w w') (passes_modify ?_) fun _ w₁ h₁ => ?_
  · split
    · exact ⟨rfl, rfl, rfl, fun hnil => ⟨rfl, hnil⟩⟩
    · exact ⟨rfl, rfl, rfl, fun hnil => ⟨rfl, hnil⟩⟩
  refine passes_get.bind ?_
  rintro t w₁ ⟨rfl, rfl⟩
  refine (Foundations.Passes.forM (I := fun w' => Emptying w w') (fun y hy w' hw' => ?_) h₁).bind
    fun _ w₂ h₂ => ?_
  · have hmem : y ∈ w.1.pageSet := h₁.set ▸ hy
    exact passes_freePage hw' hmem (hfree y hmem)
  refine passes_get.bind ?_
  rintro t w₂ ⟨rfl, rfl⟩
  refine (passes_require _).bind ?_
  rintro _ w₂ ⟨rfl, -⟩
  exact passes_modify ⟨h₂.watch, h₂.next, rfl, h₂.pages⟩

end Emptying

/-! ### The way down -/

/-- The descent has come to `cur`, and holds the pages from `top` on. -/
structure Descent (op : OpType) (pages : Pages K V) (root top cur : PageId)
    (w : BPlusTree K V × Watch) : Prop where
  course : Course op pages root top w.2
  pages_eq : w.1.pages = pages
  next : w.2.firstNew ≤ w.1.nextPageId
  below : ∃ m, Below pages top m cur
  held : PathHeld pages top cur w.1.pageSet
  free : ∀ y ∈ w.1.pageSet, y ∉ w.2.released
  above : ∀ y ∈ w.1.pageSet, ∃ k n, k ≤ n ∧ Below pages root k y ∧ Below pages root n cur
  deleted : w.1.deletedPageSet = []

section Descent

variable {op : OpType} {pages : Pages K V} {root top cur next : PageId}
  {w w' : BPlusTree K V × Watch}

theorem Descent.idle (h : Descent op pages root top cur w) (hw : Idle w w') :
    Descent op pages root top cur w' := by
  obtain ⟨calls, rfl⟩ := hw
  exact ⟨h.course, h.pages_eq, h.next, h.below, h.held, h.free, h.above, h.deleted⟩

theorem pathHeld_self {firstNew : PageId} {d : Nat} {x : PageId} {set : List PageId}
    (h : Rooted pages root firstNew) (hx : Below pages root d x) (hset : x ∈ set) :
    PathHeld pages x x set := by
  intro i k y hy hk
  have hsame := h.depth_unique hx ((hx.trans hy).trans hk)
  have hzero : i = 0 := by omega
  rw [hzero] at hy
  cases hy
  exact hset

/-- The next page is latched, and the pages above it are kept. -/
theorem Descent.keep (h : Descent op pages root top cur w) {q : InternalPage K}
    (hq : pages cur = some (.internal q)) (hnext : next ∈ q.array.map Prod.snd) :
    Descent op pages root top next
      ({ w.1 with pageSet := w.1.pageSet ++ [next] }, w.2) := by
  obtain ⟨e, he, rfl⟩ := List.mem_map.mp hnext
  obtain ⟨d, hd⟩ := h.course.place
  obtain ⟨m, hm⟩ := h.below
  have hchild := hm.child hq he
  refine ⟨h.course, h.pages_eq, h.next, ⟨m + 1, hchild⟩, fun i k y hy hk => ?_, fun y hy => ?_,
    fun y hy => ?_, h.deleted⟩
  · generalize hx : e.2 = x at hk
    cases hk with
    | self => exact List.mem_append_right _ (hx ▸ List.mem_singleton_self _)
    | @child j p q' e' hp hq' he' =>
        -- A page has one parent only.
        obtain ⟨page, hpage, hparent⟩ := h.course.rooted.parent_of_child (hd.trans hm) hq he
        obtain ⟨page', hpage', hparent'⟩ :=
          h.course.rooted.parent_of_child ((hd.trans hy).trans hp) hq' he'
        rw [← hx] at hpage'
        cases hpage.symm.trans hpage'
        rw [← hparent', hparent] at hp
        exact List.mem_append_left _ (h.held i j y hy hp)
  · rcases List.mem_append.mp hy with hy | hy
    · exact h.free y hy
    · rw [List.mem_singleton.mp hy]
      exact h.course.free hchild
  · rcases List.mem_append.mp hy with hy | hy
    · obtain ⟨k, n, hkn, hk, hn⟩ := h.above y hy
      exact ⟨k, n + 1, hkn.trans (Nat.le_succ n), hk, hn.child hq he⟩
    · rw [List.mem_singleton.mp hy]
      exact ⟨_, _, le_rfl, hd.trans hchild, hd.trans hchild⟩

/-- The next page is safe, and the pages above it are released. -/
theorem Descent.release (h : Descent op pages root top cur w) {q : InternalPage K}
    (hq : pages cur = some (.internal q)) (hnext : next ∈ q.array.map Prod.snd)
    {page : TreePage K V} (hpage : pages next = some page) (hsafe : page.isSafe op = .ok true)
    (hpages : w'.1.pages = pages) (hnew : w'.1.nextPageId = w.1.nextPageId)
    (hset : w'.1.pageSet = [next]) (hdeleted : w'.1.deletedPageSet = [])
    (hwatch : w'.2 = { w.2 with released := w.1.pageSet ++ w.2.released, rootReleased := true }) :
    Descent op pages root next next w' := by
  obtain ⟨e, he, rfl⟩ := List.mem_map.mp hnext
  obtain ⟨d, hd⟩ := h.course.place
  obtain ⟨m, hm⟩ := h.below
  have hrooted := h.course.rooted
  have hcur := hd.trans hm
  have hplace := hcur.child hq he
  have hfree : ∀ {n y}, Below pages e.2 n y → y ∉ w.1.pageSet ++ w.2.released := by
    intro n y hy hmem
    rcases List.mem_append.mp hmem with hmem | hmem
    · -- The pages held so far are not below the next one.
      obtain ⟨k, n', hkn, hk, hn'⟩ := h.above y hmem
      have hsame := hrooted.depth_unique hk (hplace.trans hy)
      have hsame' := hrooted.depth_unique hn' hcur
      omega
    · exact h.course.free (hm.child hq he |>.trans hy) hmem
  refine ⟨⟨?_, ⟨_, hplace⟩, ?_, ?_, ?_⟩, hpages, ?_, ⟨0, .self⟩, ?_, ?_, ?_, hdeleted⟩
  · rw [hwatch]
    exact hrooted
  · rw [hwatch]
    exact hfree
  · rw [hwatch]
    intro y hy
    rcases List.mem_append.mp hy with hy | hy
    · obtain ⟨k, -, -, hk, -⟩ := h.above y hy
      exact hrooted.fresh hk
    · exact h.course.given y hy
  · refine Or.inr ⟨?_, page, hpage, hsafe⟩
    intro heq
    rw [heq] at hplace
    exact absurd (hrooted.depth_unique hplace .self) (Nat.succ_ne_zero _)
  · rw [hwatch, hnew]
    exact h.next
  · rw [hset]
    exact pathHeld_self hrooted hplace (List.mem_singleton_self _)
  · rw [hset, hwatch]
    intro y hy
    rw [List.mem_singleton.mp hy]
    exact hfree .self
  · rw [hset]
    intro y hy
    rw [List.mem_singleton.mp hy]
    exact ⟨_, _, le_rfl, hplace, hplace⟩

/-- One step down: the pages held so far are released when the next one is
safe. -/
theorem passes_crabingProtocalFetchPage (hop : op ≠ .read) (h : Descent op pages root top cur w)
    {q : InternalPage K} (hq : pages cur = some (.internal q))
    (hnext : next ∈ q.array.map Prod.snd) :
    Passes (BPlusTree.crabingProtocalFetchPage next op cur true)
      (BPlusTree.crabingProtocalFetchPage next op cur true)
      (fun _ w' => ∃ top', Descent op pages root top' next w') w := by
  obtain ⟨d, hd⟩ := h.course.place
  obtain ⟨m, hm⟩ := h.below
  have hprevious : cur > 0 := h.course.rooted.positive (hd.trans hm)
  have hfree : next ∉ w.2.released := by
    obtain ⟨e, he, rfl⟩ := List.mem_map.mp hnext
    exact h.course.free (hm.child hq he)
  rw [crabingProtocalFetchPage_eq hop, crabingProtocalFetchPage_eq hop]
  refine (passes_fetchPage_idle hfree).bind fun _ w₁ h₁ => ?_
  refine (passes_record_idle _).bind fun _ w₂ h₂ => ?_
  have h₂d := h.idle (h₁.trans h₂)
  refine (passes_readPage (Within.of_idle ∅ (h₁.trans h₂)) hfree).bind ?_
  rintro page w₂ ⟨rfl, hpage⟩
  rw [h₂d.pages_eq] at hpage
  simp only [if_pos hprevious]
  refine (passes_ofExcept _).bind ?_
  rintro safe w₂ ⟨rfl, hsafe⟩
  cases safe with
  | true =>
      refine Passes.bind (Q := fun _ w' => w'.1.pages = pages ∧
        w'.1.nextPageId = w₂.1.nextPageId ∧ w'.1.pageSet = [] ∧ w'.1.deletedPageSet = [] ∧
        w'.2 = { w₂.2 with released := w₂.1.pageSet ++ w₂.2.released, rootReleased := true })
        (.look (.note ?_)) ?_
      · refine (passes_freePagesInTransaction h₂d.free cur).mono fun _ w₃ h₃ => ?_
        obtain ⟨hwatch, hnew, hset, hpages⟩ := h₃
        obtain ⟨hpages, hdeleted⟩ := hpages h₂d.deleted
        exact ⟨hpages.trans h₂d.pages_eq, hnew, hset, hdeleted, by rw [hwatch]⟩
      · rintro _ w₃ ⟨hpages, hnew, hset, hdeleted, hwatch⟩
        refine (passes_require _).bind ?_
        rintro _ w₃ ⟨rfl, -⟩
        refine passes_modify
          ⟨next, h₂d.release hq hnext hpage hsafe hpages hnew ?_ hdeleted hwatch⟩
        rw [hset]
        rfl
  | false =>
      refine Passes.bind (Q := fun _ w' => w' = w₂) (Foundations.Passes.pure rfl) ?_
      rintro _ _ rfl
      refine (passes_require _).bind ?_
      rintro _ w₂ ⟨rfl, -⟩
      exact passes_modify ⟨top, h₂d.keep hq hnext⟩

theorem passes_findLeafFrom (params : IndexParams K) (hop : op ≠ .read) (key : K) (fuel : Nat)
    (h : Descent op pages root top cur w) :
    Passes (BPlusTree.findLeafFrom params key false op true fuel cur)
      (BPlusTree.findLeafFrom params key false op true fuel cur)
      (fun leaf w' => ∃ top', Descent op pages root top' leaf w') w := by
  induction fuel generalizing top cur w with
  | zero => exact passes_throw _
  | succ fuel ih =>
      obtain ⟨m, hm⟩ := h.below
      rw [BPlusTree.findLeafFrom, BPlusTree.findLeafFrom]
      refine (passes_readPage (Within.refl ∅ w) (h.course.free hm)).bind ?_
      rintro page w ⟨rfl, hpage⟩
      rw [h.pages_eq] at hpage
      cases page with
      | leaf page => exact .pure ⟨top, h⟩
      | internal q =>
          dsimp only
          simp only [Bool.false_eq_true, if_false]
          refine (passes_ofExcept _).bind ?_
          rintro next w ⟨rfl, hlookup⟩
          have hnext := InternalPage.lookup_ok hlookup
          refine (passes_crabingProtocalFetchPage hop h hpage hnext).bind ?_
          rintro _ w₁ ⟨top', h₁⟩
          exact ih h₁

/-- From the leaf that has been found the climb can start. -/
theorem Descent.steady (h : Descent op pages root top cur w) (m : Nat) :
    Steady pages top w.2 m w where
  watch := rfl
  next := h.next
  free := h.free
  above _ _ := by rw [h.pages_eq]
  level hy hpage := by
    rw [h.pages_eq] at hpage
    exact Fits.of_below hy hpage

end Descent

/-! ### Whole calls -/

/-- A call on the tree `t` has not done anything yet. -/
structure Starting (t : BPlusTree K V) (w : BPlusTree K V × Watch) : Prop where
  watch : w.2 = ⟨t.nextPageId, [], false⟩
  root : w.1.rootPageId = t.rootPageId
  pages : w.1.pages = t.pages
  next : w.1.nextPageId = t.nextPageId
  set : w.1.pageSet = []
  deleted : w.1.deletedPageSet = []

section Calls

variable {op : OpType} {t : BPlusTree K V} {w : BPlusTree K V × Watch} (params : IndexParams K)

theorem passes_lockRootPageId (h : Starting t w) :
    Passes (BPlusTree.lockRootPageId true) (BPlusTree.lockRootPageId true)
      (fun _ w' => Starting t w') w :=
  passes_modify ⟨h.watch, h.root, h.pages, h.next, h.set, h.deleted⟩

theorem passes_tryUnlockRootPageId (h : Starting t w) :
    Passes (BPlusTree.tryUnlockRootPageId true) (BPlusTree.tryUnlockRootPageId true)
      (fun _ w' => Starting t w') w := by
  refine passes_modify ?_
  split
  · exact ⟨h.watch, h.root, h.pages, h.next, h.set, h.deleted⟩
  · exact h

theorem Starting.descent (h : Starting t w)
    (hrooted : Rooted t.pages t.rootPageId t.nextPageId) (calls : List PoolCall) :
    Descent op t.pages t.rootPageId t.rootPageId t.rootPageId
      ({ w.1 with pageSet := w.1.pageSet ++ [t.rootPageId], calls := calls }, w.2) := by
  have hwatch := h.watch
  have hself : t.rootPageId ∈ w.1.pageSet ++ [t.rootPageId] := List.mem_append_right _ (by simp)
  have hnone : ∀ y, y ∉ w.2.released := by
    rw [hwatch]
    exact fun _ => List.not_mem_nil
  refine ⟨⟨?_, ⟨0, .self⟩, fun _ => hnone _, fun y hy => absurd hy (hnone y), Or.inl ⟨rfl, ?_⟩⟩,
    h.pages, ?_, ⟨0, .self⟩, pathHeld_self hrooted .self hself, fun y _ => hnone y,
    fun y hy => ?_, h.deleted⟩
  · rw [hwatch]
    exact hrooted
  · rw [hwatch]
  · rw [hwatch]
    exact h.next.ge
  · rw [h.set, List.nil_append, List.mem_singleton] at hy
    rw [hy]
    exact ⟨0, 0, le_rfl, .self, .self⟩

theorem passes_findLeafPage (hop : op ≠ .read) (key : K) (h : Starting t w)
    (hrooted : t.rootPageId ≠ invalidPageId → Rooted t.pages t.rootPageId t.nextPageId) :
    Passes (BPlusTree.findLeafPage params key false op true)
      (BPlusTree.findLeafPage params key false op true)
      (fun r w' => ∀ leaf, r = some leaf →
        ∃ top, Descent op t.pages t.rootPageId top leaf w') w := by
  unfold BPlusTree.findLeafPage
  rw [decide_eq_true hop]
  refine (passes_lockRootPageId h).bind fun _ w₁ h₁ => ?_
  refine (passes_getRootPageId (by rw [h₁.watch])).bind ?_
  rintro rootPageId w₁ ⟨rfl, rfl⟩
  rw [h₁.root]
  refine .ite (fun _ => ?_) fun hroot => ?_
  · refine (passes_tryUnlockRootPageId h₁).bind fun _ w₂ h₂ => ?_
    exact .pure (by simp)
  · have hfree : t.rootPageId ∉ w₁.2.released := by
      rw [h₁.watch]
      exact List.not_mem_nil
    refine passes_get.bind ?_
    rintro t' w₁ ⟨rfl, rfl⟩
    refine (passes_crabingProtocalFetchPage_first hop hfree).bind ?_
    rintro _ _ ⟨calls, rfl⟩
    refine (passes_findLeafFrom params hop key _ (h₁.descent (hrooted hroot) calls)).bind ?_
    rintro leaf w₃ ⟨top, h₃⟩
    refine .pure ?_
    rintro _ ⟨⟩
    exact ⟨top, h₃⟩

theorem passes_startNewTree (key : K) (value : V) (h : Starting t w) :
    Passes (BPlusTree.startNewTree params key value) (BPlusTree.startNewTree params key value)
      (fun _ _ => True) w := by
  have hfree : ∀ y, y ∉ w.2.released := by
    rw [h.watch]
    exact fun _ => List.not_mem_nil
  have hroot : w.2.rootReleased = false := by rw [h.watch]
  have hnew : w.2.firstNew ≤ w.1.nextPageId := by
    rw [h.watch]
    exact h.next.ge
  unfold BPlusTree.startNewTree
  refine (passes_newPage (Within.refl Set.univ w)).bind ?_
  rintro _ w₁ ⟨h₁, rfl⟩
  refine (passes_writePage h₁ (hfree _) (Or.inr hnew) trivial _).bind ?_
  rintro _ w₂ ⟨h₂, -⟩
  refine (passes_setRootPageId h₂ hroot _).bind fun _ w₃ h₃ => ?_
  refine (passes_updateRootPageId h₃ hroot params true).bind fun _ w₄ h₄ => ?_
  refine (passes_leafAt h₄ (hfree _)).bind ?_
  rintro root w₄ ⟨rfl, -⟩
  refine (passes_ofExcept _).bind ?_
  rintro root w₄ ⟨rfl, -⟩
  refine (passes_writePage h₄ (hfree _) (Or.inr hnew) trivial _).bind ?_
  rintro _ w₅ ⟨h₅, -⟩
  exact (passes_unpinPage h₅ _ true).mono fun _ _ _ => trivial

theorem passes_insertIntoLeaf [Inhabited K] (key : K) (value : V) (h : Starting t w)
    (hrooted : t.rootPageId ≠ invalidPageId → Rooted t.pages t.rootPageId t.nextPageId) :
    Passes (BPlusTree.insertIntoLeaf params key value true)
      (BPlusTree.insertIntoLeaf params key value true) (fun _ _ => True) w := by
  unfold BPlusTree.insertIntoLeaf
  refine (passes_findLeafPage params (by decide) key h hrooted).bind fun r w₁ h₁ => ?_
  cases r with
  | none => exact passes_throw _
  | some id =>
      obtain ⟨top, hd⟩ := h₁ id rfl
      obtain ⟨m, hm⟩ := hd.below
      have hc := hd.course
      have hfree := hc.free hm
      have hheld := hd.held m 0 id hm .self
      dsimp only
      refine (passes_leafAt (Within.refl ∅ w₁) hfree).bind ?_
      rintro leaf w₁ ⟨rfl, hleaf⟩
      rw [hd.pages_eq] at hleaf
      cases leaf.lookup params.comparator key with
      | some _ =>
          exact (passes_freePagesInTransaction hd.free _).bind fun _ _ _ => .pure trivial
      | none =>
          dsimp only
          refine (passes_ofExcept _).bind ?_
          rintro leaf' w₁ ⟨rfl, hinsert⟩
          obtain ⟨l, rfl, hlen⟩ := LeafPage.insert_ok hinsert
          have hin : id ∈ Around t.pages top w₁.2 m id := Or.inl rfl
          refine (passes_writePage (Within.refl _ w₁) hfree (Or.inl hheld) hin _).bind ?_
          rintro _ w₂ ⟨h₂, hid₂⟩
          have hfits : ∀ page, w₂.1.pages id = some page → Fits t.pages top w₁.2 m id page := by
            intro page hpage
            cases hid₂.symm.trans hpage
            exact (Fits.of_below hm hleaf).leaf rfl
          have hsteady := (hd.steady m).within hc hm h₂ hfits
          refine Passes.bind (Q := fun _ w' => ∀ y ∈ w'.1.pageSet, y ∉ w'.2.released)
            (.ite (fun hover => ?_) fun _ => .pure fun y hy => ?_) fun _ w₃ h₃ =>
              (passes_freePagesInTransaction h₃ _).bind fun _ _ _ => .pure trivial
          · -- The leaf has one entry too many, so it was full.
            refine (passes_split params hc hsteady.watch hsteady.next hm (h₂.set hheld)
              hfits).bind ?_
            rintro newId w₃ ⟨h₃, hnewId, hfits₃⟩
            have hsteady₃ := hsteady.within hc hm h₃ hfits₃
            have hlow : newId ∈ Lower t.pages top w₁.2 m := Or.inl hnewId
            refine (passes_leafAt (h₂.trans h₃) (hc.free_lower hlow)).bind ?_
            rintro newLeaf w₃ ⟨rfl, -⟩
            refine (passes_ofExcept _).bind ?_
            rintro newKey w₃ ⟨rfl, -⟩
            refine passes_get.bind ?_
            rintro t' w₃ ⟨rfl, rfl⟩
            refine (passes_insertIntoParent params hc _ newKey hsteady₃
              (hd.held.subset (h₂.trans h₃).set) hm (fun old hold => ?_) hlow).mono
              fun _ w₄ h₄ => ?_
            · cases hleaf.symm.trans hold
              refine not_isSafe_insert ?_
              change leaf.maxSize < leaf.array.length + 1
              rw [← hlen]
              exact hover
            · rw [h₄.watch, hsteady₃.watch]
              exact h₄.free_of_mem hsteady₃.watch hsteady₃.free
          · rw [hsteady.watch]
            exact hsteady.free y hy

theorem passes_insert [Inhabited K] (key : K) (value : V) (h : Starting t w)
    (hrooted : t.rootPageId ≠ invalidPageId → Rooted t.pages t.rootPageId t.nextPageId) :
    Passes (BPlusTree.insert params key value true) (BPlusTree.insert params key value true)
      (fun _ _ => True) w := by
  unfold BPlusTree.insert
  refine (passes_lockRootPageId h).bind fun _ w₁ h₁ => ?_
  refine (passes_getRootPageId (by rw [h₁.watch])).bind ?_
  rintro rootPageId w₁ ⟨rfl, -⟩
  refine .ite (fun _ => ?_) fun _ => ?_
  · refine (passes_startNewTree params key value h₁).bind fun _ w₂ _ => ?_
    exact Passes.bind (Q := fun _ _ => True) (passes_modify trivial) fun _ _ _ => .pure trivial
  · refine (passes_tryUnlockRootPageId h₁).bind fun _ w₂ h₂ => ?_
    exact passes_insertIntoLeaf params key value h₂ hrooted

theorem passes_remove (key : K) (h : Starting t w)
    (hrooted : t.rootPageId ≠ invalidPageId → Rooted t.pages t.rootPageId t.nextPageId) :
    Passes (BPlusTree.remove params key true) (BPlusTree.remove params key true)
      (fun _ _ => True) w := by
  unfold BPlusTree.remove
  refine (passes_getRootPageId (by rw [h.watch])).bind ?_
  rintro rootPageId w ⟨rfl, -⟩
  refine .ite (fun _ => .pure trivial) fun _ => ?_
  refine (passes_findLeafPage params (by decide) key h hrooted).bind fun r w₁ h₁ => ?_
  cases r with
  | none => exact passes_throw _
  | some id =>
      obtain ⟨top, hd⟩ := h₁ id rfl
      obtain ⟨m, hm⟩ := hd.below
      have hc := hd.course
      have hfree := hc.free hm
      have hheld := hd.held m 0 id hm .self
      dsimp only
      refine (passes_leafAt (Within.refl ∅ w₁) hfree).bind ?_
      rintro leaf w₁ ⟨rfl, hleaf⟩
      rw [hd.pages_eq] at hleaf
      obtain ⟨l, hremove, hlen⟩ :=
        LeafPage.removeAndDeleteRecord_outcome params.comparator leaf key
      rw [hremove]
      have hin : id ∈ Around t.pages top w₁.2 m id := Or.inl rfl
      refine (passes_writePage (Within.refl _ w₁) hfree (Or.inl hheld) hin _).bind ?_
      rintro _ w₂ ⟨h₂, hid₂⟩
      have hsteady := (hd.steady m).within hc hm h₂ fun page hpage => by
        cases hid₂.symm.trans hpage
        exact (Fits.of_below hm hleaf).leaf rfl
      refine Passes.bind (Q := fun _ w' => ∀ y ∈ w'.1.pageSet, y ∉ w'.2.released)
        (.ite (fun hunder => ?_) fun _ => .pure fun y hy => ?_) fun _ w₃ h₃ =>
          (passes_freePagesInTransaction h₃ _).mono fun _ _ _ => trivial
      · refine passes_get.bind ?_
        rintro t' w₂ ⟨rfl, rfl⟩
        refine (passes_coalesceOrRedistribute params hc _ hsteady (hd.held.subset h₂.set) hm
          fun old hold => ?_).bind fun _ w₄ h₄ => .pure ?_
        · -- With one entry more the leaf was not safe yet.
          cases hleaf.symm.trans hold
          exact not_isSafe_leaf (hlen.trans hunder)
        · rw [h₄.watch, hsteady.watch]
          exact h₄.free_of_mem hsteady.watch hsteady.free
      · rw [hsteady.watch]
        exact hsteady.free y hy

end Calls

end Watched

namespace BPlusTree

/-- What a writer needs to know of a well-formed tree. -/
theorem WellFormed.rooted {params : IndexParams K} {t : BPlusTree K V} {depth : Nat}
    (h : WellFormed params t depth)
    (hids : ∀ n y, Below t.pages t.rootPageId n y → 0 < y ∧ y < t.nextPageId) :
    Rooted t.pages t.rootPageId t.nextPageId where
  present hy := (h.page hy).imp fun _ hpage => hpage.1
  parent := h.parent
  rootParent := h.rootParent
  positive hy := (hids _ _ hy).1
  fresh hy := (hids _ _ hy).2

end BPlusTree

namespace TreeUpdate

variable [Inhabited K]

/-- The update under watch. -/
def watched (params : IndexParams K) : TreeUpdate K V → WatchedM K V Unit
  | .insert key value => do
      let _ ← BPlusTree.insert params key value true
      pure ()
  | .remove key => BPlusTree.remove params key true

/-- On a well-formed tree an update under watch does what it does without:
it stops for a fault of the tree only. -/
theorem watched_eq (params : IndexParams K) (u : TreeUpdate K V) (t : BPlusTree K V)
    (htree : t.rootPageId = invalidPageId ∨ ∃ depth, BPlusTree.WellFormed params t depth)
    (hids : ∀ y, BPlusTree.InTree t y → 0 < y ∧ y < t.nextPageId)
    (hset : t.pageSet = []) (hdeleted : t.deletedPageSet = []) :
    (u.watched params (t, ⟨t.nextPageId, [], false⟩)).map (fun r => (r.1, r.2.1)) =
      (u.run params t).mapError Watch.Stop.fault := by
  have hstart : Watched.Starting t (t, ⟨t.nextPageId, [], false⟩) :=
    ⟨rfl, rfl, rfl, rfl, hset, hdeleted⟩
  have hrooted : t.rootPageId ≠ invalidPageId →
      BPlusTree.Rooted t.pages t.rootPageId t.nextPageId := by
    intro hroot
    obtain ⟨depth, h⟩ := htree.resolve_left hroot
    exact h.rooted fun n y hy => hids y ⟨hroot, n, hy⟩
  cases u with
  | insert key value =>
      exact ((Watched.passes_insert params key value hstart hrooted).bind
        fun _ _ _ => .pure (Q := fun _ _ => True) trivial).map_eq
  | remove key => exact (Watched.passes_remove params key hstart hrooted).map_eq

end TreeUpdate

/-! ### A tree of two leaves -/

/-- Its leaves hold five entries at most. -/
def twoLeavesIndex : IndexParams Int := ⟨[110], .bytes64, fun a b => a - b⟩

/-- The left leaf is safe when one key is removed, the right one is not. -/
def twoLeaves : BPlusTree Int Nat where
  rootPageId := 1
  pages := fun id =>
    if id = 1 then some (.internal ⟨⟨1, -1, 6⟩, [(0, 2), (5, 3)]⟩)
    else if id = 2 then some (.leaf ⟨⟨2, 1, 5⟩, 3, [(1, 10), (2, 20), (3, 30)]⟩)
    else if id = 3 then some (.leaf ⟨⟨3, 1, 5⟩, -1, [(5, 50), (6, 60)]⟩)
    else none
  headerPage := HeaderPage.init
  nextPageId := 4
  rootLockedCnt := 0
  pageSet := []
  deletedPageSet := []
  calls := []

namespace BPlusTree

theorem below_twoLeaves {n : Nat} {y : PageId} (h : Below twoLeaves.pages 1 n y) :
    (n = 0 ∧ y = 1) ∨ (n = 1 ∧ y = 2) ∨ (n = 1 ∧ y = 3) := by
  induction h with
  | self => exact Or.inl ⟨rfl, rfl⟩
  | child hy hq he ih =>
      rcases ih with ⟨rfl, rfl⟩ | ⟨rfl, rfl⟩ | ⟨rfl, rfl⟩
      · cases hq
        rcases List.mem_pair.mp he with rfl | rfl
        · exact Or.inr (Or.inl ⟨rfl, rfl⟩)
        · exact Or.inr (Or.inr ⟨rfl, rfl⟩)
      · cases hq
      · cases hq

theorem KeyBelow.of_leaf {pages : Pages K V} {y : PageId} {leaf : LeafPage K V} {k : K}
    (h : KeyBelow pages y k) (hy : pages y = some (.leaf leaf)) : k ∈ leaf.array.map Prod.fst := by
  cases h with
  | entry hy' he =>
      cases hy.symm.trans hy'
      exact List.mem_map_of_mem he
  | separator hy' he => cases hy.symm.trans hy'
  | child hy' he hk => cases hy.symm.trans hy'

theorem twoLeaves_wellFormed : WellFormed twoLeavesIndex twoLeaves 1 where
  page hy := by
    rcases below_twoLeaves hy with ⟨rfl, rfl⟩ | ⟨rfl, rfl⟩ | ⟨rfl, rfl⟩ <;> exact ⟨_, rfl, rfl⟩
  leafDepth hy hpage := by
    rcases below_twoLeaves hy with ⟨rfl, rfl⟩ | ⟨rfl, rfl⟩ | ⟨rfl, rfl⟩ <;> cases hpage <;> decide
  maxSize hy hpage := by
    rcases below_twoLeaves hy with ⟨rfl, rfl⟩ | ⟨rfl, rfl⟩ | ⟨rfl, rfl⟩ <;> cases hpage <;> decide
  size hy hpage := by
    rcases below_twoLeaves hy with ⟨rfl, rfl⟩ | ⟨rfl, rfl⟩ | ⟨rfl, rfl⟩ <;> cases hpage <;> decide
  rootSize hpage := by
    cases hpage
    decide
  sorted hy hleaf := by
    rcases below_twoLeaves hy with ⟨rfl, rfl⟩ | ⟨rfl, rfl⟩ | ⟨rfl, rfl⟩ <;> cases hleaf <;> decide
  separated {n y q i e k} hy hq he hk := by
    rcases below_twoLeaves hy with ⟨rfl, rfl⟩ | ⟨rfl, rfl⟩ | ⟨rfl, rfl⟩ <;> cases hq
    rcases i with - | - | i
    · cases he
      have hkey := hk.of_leaf rfl
      refine ⟨fun hlt => absurd hlt (lt_irrefl 0), ?_⟩
      rintro _ ⟨⟩
      have hless : ∀ a ∈ ([1, 2, 3] : List Int), a - 5 < 0 := by decide
      exact hless k hkey
    · cases he
      have hkey := hk.of_leaf rfl
      have hnot : ∀ a ∈ ([5, 6] : List Int), 0 ≤ a - 5 := by decide
      exact ⟨fun _ => hnot k hkey, fun f hf => by cases hf⟩
    · cases he
  rootParent hpage := by
    cases hpage
    rfl
  parent hy hq he hpage := by
    rcases below_twoLeaves hy with ⟨rfl, rfl⟩ | ⟨rfl, rfl⟩ | ⟨rfl, rfl⟩ <;> cases hq
    rcases List.mem_pair.mp he with rfl | rfl <;> cases hpage <;> rfl
  leaves {y} := by
    have hrow : leavesBelow twoLeaves.pages 1 twoLeaves.rootPageId = [2, 3] := rfl
    rw [hrow, List.mem_pair]
    constructor
    · rintro (rfl | rfl)
      · exact .child (e := (0, 2)) .self rfl (by decide)
      · exact .child (e := (5, 3)) .self rfl (by decide)
    · intro hy
      rcases below_twoLeaves hy with ⟨hzero, -⟩ | ⟨-, rfl⟩ | ⟨-, rfl⟩
      · cases hzero
      · exact Or.inl rfl
      · exact Or.inr rfl
  nodup := by decide
  chain := ⟨⟨_, rfl, rfl⟩, _, rfl, rfl⟩

end BPlusTree

namespace TreeUpdate

/-- The left leaf is safe, and the root has been released. -/
theorem watched_eq_two_leaves :
    ((remove 1 : TreeUpdate Int Nat).watched twoLeavesIndex (twoLeaves, ⟨4, [], false⟩)).map
        (fun r => (r.1, r.2.1)) =
      ((remove 1 : TreeUpdate Int Nat).run twoLeavesIndex twoLeaves).mapError Watch.Stop.fault ∧
    (((remove 1 : TreeUpdate Int Nat).watched twoLeavesIndex
      (twoLeaves, ⟨4, [], false⟩)).toOption.map
        fun r => (r.2.2.released, r.2.2.rootReleased)) = some ([1], true) := by
  refine ⟨watched_eq twoLeavesIndex (.remove 1) twoLeaves
    (Or.inr ⟨1, BPlusTree.twoLeaves_wellFormed⟩) (fun y hy => ?_) rfl rfl, by decide +kernel⟩
  obtain ⟨-, n, hy⟩ := hy
  rcases BPlusTree.below_twoLeaves hy with ⟨-, rfl⟩ | ⟨-, rfl⟩ | ⟨-, rfl⟩ <;> decide

end TreeUpdate

end ScuDb
