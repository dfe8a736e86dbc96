import Mathlib.Data.Set.Insert
import ScuDb.Index.Structure
import ScuDb.Index.Watched

/-!
The accesses of a watched call, and the places of the pages in a tree.

An access passes when its page is not released and, where its entries are
changed, in the page set or new. `Within T` says what a part of a call has
changed: only pages of `T`, and the page set has only grown. `Rooted`
has what a writer needs to know of a tree, which is about places only and
not about keys.
-/

namespace ScuDb

open Foundations

variable {K V : Type}

namespace BPlusTree

/-! ### Places in a tree -/

/-- What is known of the places of the pages of a tree: they point to
their parents, and their ids are given away. -/
structure Rooted (pages : Pages K V) (root next : PageId) : Prop where
  present : ∀ {n y}, Below pages root n y → ∃ page, pages y = some page
  parent : ∀ {n y q e page}, Below pages root n y → pages y = some (.internal q) →
    e ∈ q.array → pages e.2 = some page → page.getParentPageId = y
  rootParent : ∀ {page}, pages root = some page → page.getParentPageId = invalidPageId
  positive : ∀ {n y}, Below pages root n y → 0 < y
  fresh : ∀ {n y}, Below pages root n y → y < next

theorem Below.trans {pages : Pages K V} {x y z : PageId} {n k : Nat} (h : Below pages x n y)
    (h' : Below pages y k z) : Below pages x (n + k) z := by
  induction h' with
  | self => exact h
  | child _ hq he ih => exact ih.child hq he

namespace Rooted

variable {pages : Pages K V} {root next x y : PageId} {n k : Nat}

theorem ne_invalid (h : Rooted pages root next) (hy : Below pages root n y) :
    y ≠ invalidPageId := by
  rintro rfl
  exact absurd (h.positive hy) (by decide)

theorem parent_of_child (h : Rooted pages root next) {p : PageId} {q : InternalPage K}
    {e : K × PageId} (hp : Below pages root n p) (hq : pages p = some (.internal q))
    (he : e ∈ q.array) : ∃ page, pages e.2 = some page ∧ page.getParentPageId = p := by
  obtain ⟨page, hpage⟩ := h.present (hp.child hq he)
  exact ⟨page, hpage, h.parent hp hq he hpage⟩

theorem depth_unique (h : Rooted pages root next) (hn : Below pages root n y)
    (hk : Below pages root k y) : n = k := by
  induction hn generalizing k with
  | self =>
      cases hk with
      | self => rfl
      | child hp hq he =>
          obtain ⟨page, hpage, hparent⟩ := h.parent_of_child hp hq he
          exact absurd (hparent.symm.trans (h.rootParent hpage)) (h.ne_invalid hp)
  | @child n p q e hp hq he ih =>
      obtain ⟨page, hpage, hparent⟩ := h.parent_of_child hp hq he
      generalize hy : e.2 = y at hk
      cases hk with
      | self =>
          rw [hy] at hpage
          exact absurd (hparent.symm.trans (h.rootParent hpage)) (h.ne_invalid hp)
      | @child m p' q' e' hp' hq' he' =>
          obtain ⟨page', hpage', hparent'⟩ := h.parent_of_child hp' hq' he'
          rw [hy, hpage'] at hpage
          cases hpage
          rw [ih (hparent.symm.trans hparent' ▸ hp')]

end Rooted

/-- How a writer latches a page. -/
theorem crabingProtocalFetchPage_eq {M : Type → Type} [Monad M] [MonadState (BPlusTree K V) M]
    [MonadExcept Fault M] [Access M K V] {op : OpType} (hop : op ≠ .read) (id previous : PageId) :
    (crabingProtocalFetchPage id op previous true : M Unit) = (do
      fetchPage id
      record (.lock true id)
      let page ← readPage id
      let safe ← (if previous > 0 then MonadExcept.ofExcept (page.isSafe op) else pure false)
      (if safe = true then releasing (freePagesInTransaction true true previous) else pure ())
      addIntoPageSet true id) := by
  simp only [crabingProtocalFetchPage, decide_eq_true hop, if_true, Bool.true_eq_false, if_false]

end BPlusTree

namespace Watched

/-! ### The accesses -/

/-- From `w` to `w'` calls are recorded, and nothing else is done. -/
def Idle (w w' : BPlusTree K V × Watch) : Prop :=
  ∃ calls, w' = ({ w.1 with calls := calls }, w.2)

theorem Idle.trans {w w' w'' : BPlusTree K V × Watch} (h : Idle w w') (h' : Idle w' w'') :
    Idle w w'' := by
  obtain ⟨calls, rfl⟩ := h
  obtain ⟨calls', rfl⟩ := h'
  exact ⟨calls', rfl⟩

/-- From `w` to `w'` only pages of `T` are changed; the page set may have
grown, by pages that are not released. -/
structure Within (T : Set PageId) (w w' : BPlusTree K V × Watch) : Prop where
  watch : w'.2 = w.2
  next : w.1.nextPageId ≤ w'.1.nextPageId
  set : w.1.pageSet ⊆ w'.1.pageSet
  added : ∀ y ∈ w'.1.pageSet, y ∈ w.1.pageSet ∨ y ∉ w.2.released
  pages : ∀ y, y ∉ T → w'.1.pages y = w.1.pages y

namespace Within

variable {T T' : Set PageId} {w w' w'' : BPlusTree K V × Watch}

theorem refl (T : Set PageId) (w : BPlusTree K V × Watch) : Within T w w where
  watch := rfl
  next := le_rfl
  set := List.Subset.refl _
  added _ hy := Or.inl hy
  pages _ _ := rfl

theorem trans (h : Within T w w') (h' : Within T w' w'') : Within T w w'' where
  watch := h'.watch.trans h.watch
  next := h.next.trans h'.next
  set := List.Subset.trans h.set h'.set
  added y hy := by
    rcases h'.added y hy with hold | hnew
    · exact h.added y hold
    · rw [h.watch] at hnew
      exact Or.inr hnew
  pages y hy := (h'.pages y hy).trans (h.pages y hy)

theorem mono (h : Within T w w') (hT : T ⊆ T') : Within T' w w' where
  watch := h.watch
  next := h.next
  set := h.set
  added := h.added
  pages y hy := h.pages y fun hmem => hy (hT hmem)

theorem of_idle (T : Set PageId) (h : Idle w w') : Within T w w' := by
  obtain ⟨calls, rfl⟩ := h
  exact ⟨rfl, le_rfl, List.Subset.refl _, fun _ hy => Or.inl hy, fun _ _ => rfl⟩

theorem of_latch (T : Set PageId) (w : BPlusTree K V × Watch) {id : PageId}
    (hid : id ∉ w.2.released) (calls : List PoolCall) :
    Within T w ({ w.1 with pageSet := w.1.pageSet ++ [id], calls := calls }, w.2) where
  watch := rfl
  next := le_rfl
  set := List.subset_append_left _ _
  added y hy := by
    rcases List.mem_append.mp hy with hy | hy
    · exact Or.inl hy
    · rw [List.mem_singleton.mp hy]
      exact Or.inr hid
  pages _ _ := rfl

theorem write {id : PageId} (hid : id ∈ T) (w : BPlusTree K V × Watch)
    (page : Option (TreePage K V)) (calls : List PoolCall) :
    Within T w ({ w.1 with pages := Function.update w.1.pages id page, calls := calls }, w.2) where
  watch := rfl
  next := le_rfl
  set := List.Subset.refl _
  added _ hy := Or.inl hy
  pages y hy := Function.update_of_ne (fun heq : y = id => hy (heq ▸ hid)) _ _

end Within

/-- The watched program does what the program does. -/
abbrev Passes {α : Type} (m' : WatchedM K V α) (m : TreeM K V α)
    (Q : α → BPlusTree K V × Watch → Prop) (w : BPlusTree K V × Watch) : Prop :=
  Foundations.Passes Watch.Stop.fault m' m Q w

section Accesses

variable {α : Type} {T : Set PageId} {w₀ w : BPlusTree K V × Watch} {id : PageId}

theorem Within.free (h : Within T w₀ w) (hid : id ∉ w₀.2.released) : id ∉ w.2.released := by
  rwa [h.watch]

theorem passes_onTree {m : TreeM K V α} {Q : α → BPlusTree K V × Watch → Prop}
    (h : wlp m (fun a s => Q a (s, w.2)) w.1) : Passes (onTree m) m Q w :=
  .unwatched h

theorem passes_get : Passes get get (fun t w' => w' = w ∧ t = w.1) w :=
  passes_onTree (m := get) (wlp_get.mpr ⟨rfl, rfl⟩)

theorem passes_modify {g : BPlusTree K V → BPlusTree K V}
    {Q : PUnit → BPlusTree K V × Watch → Prop} (h : Q ⟨⟩ (g w.1, w.2)) :
    Passes (modify g) (modify g) Q w :=
  passes_onTree (m := modify g) (wlp_modify.mpr h)

theorem passes_throw (e : Fault) {Q : α → BPlusTree K V × Watch → Prop} :
    Passes (throw e) (throw e) Q w :=
  passes_onTree (m := throw e) (wlp_throw.mpr trivial)

theorem passes_ofExcept (x : Except Fault α) :
    Passes (MonadExcept.ofExcept x) (MonadExcept.ofExcept x)
      (fun a w' => w' = w ∧ x = .ok a) w := by
  cases x with
  | error e => exact passes_throw e
  | ok a => exact .pure ⟨rfl, rfl⟩

theorem passes_require {c : Prop} [Decidable c] (e : Fault) :
    Passes (require c e) (require c e) (fun _ w' => w' = w ∧ c) w :=
  .ite (fun hc => .pure ⟨rfl, hc⟩) fun _ => passes_throw e

theorem passes_readPage (hw : Within T w₀ w) (hid : id ∉ w₀.2.released) :
    Passes (BPlusTree.readPage id) (BPlusTree.readPage id)
      (fun page w' => w' = w ∧ w.1.pages id = some page) w := by
  refine .check (hw.free hid) (passes_onTree ?_)
  rw [BPlusTree.wlp_readPage]
  exact fun page hpage => ⟨rfl, hpage⟩

theorem passes_leafAt (hw : Within T w₀ w) (hid : id ∉ w₀.2.released) :
    Passes (BPlusTree.leafAt id) (BPlusTree.leafAt id)
      (fun leaf w' => w' = w ∧ w.1.pages id = some (.leaf leaf)) w := by
  refine (passes_readPage hw hid).bind ?_
  rintro page w ⟨rfl, hpage⟩
  cases page with
  | leaf leaf => exact .pure ⟨rfl, hpage⟩
  | internal q => exact passes_throw _

theorem passes_internalAt (hw : Within T w₀ w) (hid : id ∉ w₀.2.released) :
    Passes (BPlusTree.internalAt id) (BPlusTree.internalAt id)
      (fun q w' => w' = w ∧ w.1.pages id = some (.internal q)) w := by
  refine (passes_readPage hw hid).bind ?_
  rintro page w ⟨rfl, hpage⟩
  cases page with
  | leaf leaf => exact passes_throw _
  | internal q => exact .pure ⟨rfl, hpage⟩

theorem passes_record_idle (call : PoolCall) :
    Passes (BPlusTree.record call) (BPlusTree.record call) (fun _ w' => Idle w w') w :=
  passes_modify ⟨_, rfl⟩

theorem passes_record (hw : Within T w₀ w) (call : PoolCall) :
    Passes (BPlusTree.record call) (BPlusTree.record call)
      (fun _ w' => Within T w₀ w') w :=
  (passes_record_idle call).mono fun _ _ h => hw.trans (Within.of_idle T h)

theorem passes_unpinPage (hw : Within T w₀ w) (id : PageId) (isDirty : Bool) :
    Passes (BPlusTree.unpinPage id isDirty) (BPlusTree.unpinPage id isDirty)
      (fun _ w' => Within T w₀ w') w :=
  passes_record hw (.unpinPage id isDirty)

theorem passes_fetchPage_idle (hid : id ∉ w.2.released) :
    Passes (BPlusTree.fetchPage id) (BPlusTree.fetchPage id) (fun _ w' => Idle w w') w := by
  refine .check hid (passes_onTree ?_)
  rw [BPlusTree.wlp_fetchPage]
  exact fun _ _ => ⟨_, rfl⟩

theorem passes_fetchPage (hw : Within T w₀ w) (hid : id ∉ w₀.2.released) :
    Passes (BPlusTree.fetchPage id) (BPlusTree.fetchPage id) (fun _ w' => Within T w₀ w') w :=
  (passes_fetchPage_idle (hw.free hid)).mono fun _ _ h => hw.trans (Within.of_idle T h)

/-- A page in the page set is changed, or a new one. -/
theorem passes_writePage (hw : Within T w₀ w) (hid : id ∉ w₀.2.released)
    (hheld : id ∈ w₀.1.pageSet ∨ w₀.2.firstNew ≤ id) (hT : id ∈ T) (page : TreePage K V) :
    Passes (BPlusTree.writePage id page) (BPlusTree.writePage id page)
      (fun _ w' => Within T w₀ w' ∧ w'.1.pages id = some page) w := by
  have hheld' : id ∈ w.1.pageSet ∨ w.2.firstNew ≤ id := by
    rw [hw.watch]
    exact hheld.imp_left fun hmem => hw.set hmem
  refine .check (hw.free hid) (.check hheld' (passes_onTree ?_))
  rw [BPlusTree.wlp_writePage]
  exact ⟨hw.trans (Within.write hT w _ _), Function.update_self _ _ _⟩

theorem passes_setParentPageId (hw : Within T w₀ w) (hid : id ∉ w₀.2.released) (hT : id ∈ T)
    (parent : PageId) :
    Passes (BPlusTree.setParentPageId id parent) (BPlusTree.setParentPageId id parent)
      (fun _ w' => Within T w₀ w') w := by
  refine .check (hw.free hid) (passes_onTree ?_)
  rw [BPlusTree.wlp_setParentPageId]
  exact fun page _ => hw.trans (Within.write hT w _ _)

theorem passes_newPage (hw : Within T w₀ w) :
    Passes BPlusTree.newPage BPlusTree.newPage
      (fun id w' => Within T w₀ w' ∧ id = w.1.nextPageId) w := by
  refine passes_onTree ?_
  rw [BPlusTree.wlp_newPage]
  refine ⟨hw.trans ⟨rfl, Int.le_add_one le_rfl, List.Subset.refl _, fun _ hy => Or.inl hy,
    fun _ _ => rfl⟩, rfl⟩

theorem passes_addIntoPageSet (hw : Within T w₀ w) (hid : id ∉ w₀.2.released) :
    Passes (BPlusTree.addIntoPageSet true id) (BPlusTree.addIntoPageSet true id)
      (fun _ w' => Within T w₀ w' ∧ id ∈ w'.1.pageSet) w := by
  refine (passes_require _).bind ?_
  rintro _ w ⟨rfl, -⟩
  exact passes_modify ⟨hw.trans (Within.of_latch T w (hw.free hid) w.1.calls),
    List.mem_append_right _ (List.mem_singleton_self id)⟩

theorem passes_addIntoDeletedPageSet (hw : Within T w₀ w) (id : PageId) :
    Passes (BPlusTree.addIntoDeletedPageSet true id)
      (BPlusTree.addIntoDeletedPageSet true id) (fun _ w' => Within T w₀ w') w := by
  refine (passes_require _).bind ?_
  rintro _ w ⟨rfl, -⟩
  exact passes_modify
    (hw.trans ⟨rfl, le_rfl, List.Subset.refl _, fun _ hy => Or.inl hy, fun _ _ => rfl⟩)

theorem passes_adoptChild {child : PageId} (hw : Within T w₀ w) (hchild : child ∉ w₀.2.released)
    (hT : child ∈ T) (parent : PageId) :
    Passes (BPlusTree.adoptChild parent child) (BPlusTree.adoptChild parent child)
      (fun _ w' => Within T w₀ w') w := by
  refine (passes_fetchPage hw hchild).bind fun _ w₁ h₁ => ?_
  refine (passes_setParentPageId h₁ hchild hT parent).bind fun _ w₂ h₂ => ?_
  exact passes_unpinPage h₂ child true

theorem passes_adoptChildren {parent : PageId} {entries : List (K × PageId)}
    (hw : Within T w₀ w) (h : ∀ id ∈ entries.map Prod.snd, id ∉ w₀.2.released ∧ id ∈ T) :
    Passes (BPlusTree.adoptChildren parent entries) (BPlusTree.adoptChildren parent entries)
      (fun _ w' => Within T w₀ w') w := by
  refine .forM (I := fun w' => Within T w₀ w') (fun e he w' hw' => ?_) hw
  have hchild := h e.2 (List.mem_map_of_mem he)
  exact passes_adoptChild hw' hchild.1 hchild.2 parent

theorem passes_getRootPageId (hroot : w.2.rootReleased = false) :
    Passes BPlusTree.getRootPageId BPlusTree.getRootPageId
      (fun id w' => w' = w ∧ id = w.1.rootPageId) w := by
  refine .check hroot (passes_onTree ?_)
  rw [BPlusTree.wlp_getRootPageId]
  exact ⟨rfl, rfl⟩

theorem passes_setRootPageId (hw : Within T w₀ w) (hroot : w₀.2.rootReleased = false)
    (id : PageId) :
    Passes (BPlusTree.setRootPageId id) (BPlusTree.setRootPageId id)
      (fun _ w' => Within T w₀ w') w := by
  refine .check (hw.watch ▸ hroot) (passes_onTree ?_)
  rw [BPlusTree.wlp_setRootPageId]
  exact hw.trans ⟨rfl, le_rfl, List.Subset.refl _, fun _ hy => Or.inl hy, fun _ _ => rfl⟩

theorem passes_updateRootPageId (hw : Within T w₀ w) (hroot : w₀.2.rootReleased = false)
    (params : IndexParams K) (insertRecord : Bool) :
    Passes (BPlusTree.updateRootPageId params insertRecord)
      (BPlusTree.updateRootPageId params insertRecord) (fun _ w' => Within T w₀ w') w := by
  unfold BPlusTree.updateRootPageId
  refine Passes.bind (Q := fun _ w' => Within T w₀ w') (passes_onTree ?_) fun _ w₁ h₁ => ?_
  · rw [BPlusTree.wlp_fetchHeaderPage]
    exact hw.trans (Within.of_idle T ⟨_, rfl⟩)
  refine (passes_getRootPageId (h₁.watch ▸ hroot)).bind ?_
  rintro rootPageId w₁ ⟨rfl, -⟩
  refine passes_get.bind ?_
  rintro t w₁ ⟨rfl, -⟩
  refine (passes_ofExcept _).bind ?_
  rintro result w₁ ⟨rfl, -⟩
  refine Passes.bind (Q := fun _ w' => Within T w₀ w') (passes_modify ?_) fun _ w₂ h₂ => ?_
  · exact h₁.trans ⟨rfl, le_rfl, List.Subset.refl _, fun _ hy => Or.inl hy, fun _ _ => rfl⟩
  · exact passes_unpinPage h₂ _ true

/-- The first page latched: the root, or a sibling. -/
theorem passes_crabingProtocalFetchPage_first {op : OpType} (hop : op ≠ .read)
    (hid : id ∉ w.2.released) :
    Passes (BPlusTree.crabingProtocalFetchPage id op (-1) true)
      (BPlusTree.crabingProtocalFetchPage id op (-1) true)
      (fun _ w' => ∃ calls,
        w' = ({ w.1 with pageSet := w.1.pageSet ++ [id], calls := calls }, w.2)) w := by
  rw [BPlusTree.crabingProtocalFetchPage_eq hop, BPlusTree.crabingProtocalFetchPage_eq hop]
  refine (passes_fetchPage_idle hid).bind fun _ w₁ h₁ => ?_
  refine (passes_record_idle _).bind fun _ w₂ h₂ => ?_
  have hidle := h₁.trans h₂
  refine (passes_readPage (Within.of_idle ∅ hidle) hid).bind ?_
  rintro page w₂ ⟨rfl, -⟩
  have hprevious : ¬(-1 : PageId) > 0 := by decide
  simp only [if_neg hprevious]
  refine Passes.bind (Q := fun safe w' => Idle w w' ∧ safe = false)
    (Foundations.Passes.pure ⟨hidle, rfl⟩) ?_
  rintro safe w₃ ⟨⟨calls, rfl⟩, rfl⟩
  refine Passes.bind (Q := fun _ w' => Idle w w') (Foundations.Passes.pure ⟨calls, rfl⟩) ?_
  rintro _ _ ⟨calls', rfl⟩
  refine (passes_require _).bind ?_
  rintro _ _ ⟨rfl, -⟩
  exact passes_modify ⟨_, rfl⟩

end Accesses

end Watched

end ScuDb
