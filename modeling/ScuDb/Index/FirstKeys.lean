import ScuDb.Index.Structure

/-!
The keys in the first slots of internal pages.

The comment in the source calls the first key of an internal page
invalid, yet a page that lends a child hands over the key of the slot.
`FirstKeys` says where the first key can be relied on: everywhere but in
the pages of the left edge. Every borrowing of a run relies on it there
only, so `Remove` with the tests of `borrow` never stops.
-/

namespace ScuDb

open Foundations

variable {K V B : Type}

namespace BPlusTree

/-- The pages on the way down from `root` that takes the first slot each time. -/
inductive OnLeftEdge (pages : Pages K V) (root : PageId) : PageId → Prop
  | root : OnLeftEdge pages root root
  | first {y x : PageId} {q : InternalPage K} (hy : OnLeftEdge pages root y)
      (hq : pages y = some (.internal q)) (hx : q.valueAt 0 = .ok x) : OnLeftEdge pages root x

/-- The first key of an internal page is the key of its slot in the
parent. For a first slot this needs a parent off the left edge. -/
structure FirstKeys (t : BPlusTree K V) : Prop where
  behind : ∀ {n y q i x child}, Below t.pages t.rootPageId n y →
    t.pages y = some (.internal q) → i ≠ 0 → q.valueAt i = .ok x →
    t.pages x = some (.internal child) → ∃ key, q.keyAt i = .ok key ∧ child.keyAt 0 = .ok key
  first : ∀ {n y q x child}, Below t.pages t.rootPageId n y → ¬OnLeftEdge t.pages t.rootPageId y →
    t.pages y = some (.internal q) → q.valueAt 0 = .ok x →
    t.pages x = some (.internal child) → ∃ key, q.keyAt 0 = .ok key ∧ child.keyAt 0 = .ok key

theorem slot_of_valueAt {q : InternalPage K} {i : Int} {x : PageId} (h : q.valueAt i = .ok x) :
    ∃ n : Nat, i = n ∧ ∃ key, q.array[n]? = some (key, x) ∧ q.keyAt i = .ok key := by
  unfold InternalPage.valueAt at h
  split at h
  · cases h
  · rename_i hneg
    split at h
    · rename_i e he
      cases h
      refine ⟨i.toNat, by omega, e.1, he, ?_⟩
      simp only [InternalPage.keyAt, if_neg hneg, he]
    · cases h

variable [LinearOrder B] [BoundedOrder B]

section Shapes

variable {ω : OrderedIndex K B} {pages : Pages K V} {G : Cells B} {root : PageId} {H : Nat}

/-- A page off the left edge has an interval with a lower end. -/
theorem Shape.lo_ne_bot (h : Shape ω pages G root H) {n : Nat} {y : PageId} {c : Cell B}
    (hy : Below pages root n y) (hedge : ¬OnLeftEdge pages root y) (hc : G y = some c) :
    c.lo ≠ ⊥ := by
  induction hy generalizing c with
  | self => exact absurd .root hedge
  | @child n y q e hy hq he ih =>
      obtain ⟨d, hd, -⟩ := h.below hy
      obtain ⟨i, hi⟩ := List.getElem?_of_mem he
      obtain ⟨hcell, hkey⟩ := h.slot_cell hd hq hi
      cases hc.symm.trans hcell
      by_cases hzero : i = 0
      · -- the first slot of a page off the edge
        have hslot : q.valueAt 0 = .ok e.2 := by
          rw [hzero] at hi
          simp [InternalPage.valueAt, hi]
        have hlo : d.lo ≠ ⊥ := ih (fun hy' => hedge (.first hy' hq hslot)) hd
        rwa [if_pos hzero]
      · rw [if_neg hzero]
        exact (ω.ranked.bot_lt (hkey (Nat.pos_of_ne_zero hzero))).ne'

/-- The first key of a child is the key of its slot. -/
theorem Shape.keyAt_zero (h : Shape ω pages G root H) {y x : PageId} {c : Cell B}
    {q child : InternalPage K} {i : Int} (hc : G y = some c) (hq : pages y = some (.internal q))
    (hi : i ≠ 0 ∨ c.lo ≠ ⊥) (hx : q.valueAt i = .ok x)
    (hchild : pages x = some (.internal child)) :
    ∃ key, q.keyAt i = .ok key ∧ child.keyAt 0 = .ok key := by
  obtain ⟨n, rfl, key, hslot, hkey⟩ := slot_of_valueAt hx
  obtain ⟨hcell, hmem⟩ := h.slot_cell hc hq hslot
  have hok := h.internalOk hcell hchild
  -- the key of the slot is the lower end of the interval of the child
  have hstart : key ∈ ω.keys ∧ ω.rank key = if n = 0 then c.lo else ω.rank key := by
    by_cases hn : n = 0
    · subst hn
      have hlo : c.lo ≠ ⊥ := hi.resolve_left (fun hne => hne rfl)
      rw [if_pos rfl]
      exact (h.internalOk hc hq).head hlo (key, x) (by rw [List.head?_eq_getElem?, hslot]; rfl)
    · rw [if_neg hn]
      exact ⟨hmem (Nat.pos_of_ne_zero hn), rfl⟩
  have hlo : (if n = 0 then c.lo else ω.rank key) ≠ ⊥ := by
    rw [← hstart.2]
    exact (ω.ranked.bot_lt hstart.1).ne'
  refine ⟨key, hkey, ?_⟩
  cases harr : child.array with
  | nil => exact absurd harr hok.nonempty
  | cons e rest =>
      obtain ⟨hmem', hrank⟩ := hok.head hlo e (by rw [harr]; rfl)
      refine InternalPage.keyAt_zero ?_
      rw [harr, ω.ranked.inj hstart.1 hmem' (hstart.2.trans hrank.symm)]
      rfl

theorem Standing.firstKeys {R : Prop} {m : K → Option V} {t : BPlusTree K V}
    (h : Standing ω R m t G H []) : FirstKeys t where
  behind hy hq hi hx hchild := by
    obtain ⟨c, hc, -⟩ := h.shape.below hy
    exact h.shape.keyAt_zero hc hq (Or.inl hi) hx hchild
  first hy hedge hq hx hchild := by
    obtain ⟨c, hc, -⟩ := h.shape.below hy
    exact h.shape.keyAt_zero hc hq (Or.inr (h.shape.lo_ne_bot hy hedge hc)) hx hchild

end Shapes

end BPlusTree

section Runs

variable [Inhabited K] [DecidableEq K] [Inhabited V]

/-- What the tree does for a call, with a test in front of every `Redistribute`. -/
def IndexOp.runTested (params : IndexParams K) : IndexOp K V → TreeM K V (IndexResult V)
  | .remove key => do
      BPlusTree.removeWith BPlusTree.borrow params key true
      pure .removed
  | op => op.run params

theorem IndexOp.runTested_guards (params : IndexParams K) (op : IndexOp K V) :
    Guards (op.runTested params) (op.run params) := by
  cases op with
  | insert key value => exact .refl _
  | remove key => exact .bind (BPlusTree.removeWith_borrow_guards params key true) fun _ => .refl _
  | getValue key result transaction => exact .refl _

/-- No test stops a call. -/
theorem IndexOp.runTested_refines [LinearOrder B] [BoundedOrder B] (ω : OrderedIndex K B) :
    Refines (fun (t : BPlusTree K V) m => BPlusTree.Represents ω False m t)
      (fun op _ => op.key ∈ ω.keys) (IndexOp.runTested ω.toIndexParams) IndexOp.spec := by
  intro op t m h hkey
  cases op with
  | insert key value => exact IndexOp.refines ω (.insert key value) t m h hkey
  | remove key =>
      rw [IndexOp.runTested, wp_bind]
      refine wp_mono (BPlusTree.wp_removeWith BPlusTree.likeRedistribute_borrow
        BPlusTree.neutral_borrow h hkey) ?_
      rintro _ t' ⟨ht', -⟩
      rw [wp_pure]
      exact ⟨rfl, ht'⟩
  | getValue key result transaction =>
      exact IndexOp.refines ω (.getValue key result transaction) t m h hkey

/-- In every tree a run of calls leads to, the first keys of internal
pages are those of their slots, off the left edge. On the way there the
key that a borrowed child takes with it is its separator each time: the
run with the tests is the run. -/
theorem tree_firstKeys (params : IndexParams K) (S : Set K)
    (hcmp : StrictTotalOrderOn params.comparator S) (hname : params.indexName.length < 32)
    (header : HeaderPage) (hroom : header.recorded params.indexName = none →
      header.getRecordCount < HeaderPage.capacity)
    (next : PageId) (hnext : 1 ≤ next) (ops : List (IndexOp K V))
    (hkeys : ∀ op ∈ ops, op.key ∈ S) :
    ∃ rs t, runAll (IndexOp.run params) ops (BPlusTree.empty header next) = .ok (rs, t) ∧
      runAll (IndexOp.runTested params) ops (BPlusTree.empty header next) = .ok (rs, t) ∧
      (t.rootPageId = invalidPageId ∨ BPlusTree.FirstKeys t) := by
  obtain ⟨B, hB, hB', ω, rfl, rfl⟩ := exists_orderedIndex params hcmp hname
  have hstart := BPlusTree.represents_empty (V := V) ω hnext hroom
  obtain ⟨rs, t, hrun, -, ht⟩ := (IndexOp.runTested_refines ω).run hstart
    (admissible_of_forall (fun op hop _ => hkeys op hop) _)
  refine ⟨rs, t, Guards.runAll (IndexOp.runTested_guards _) ops _ _ _ hrun, hrun, ?_⟩
  refine ht.tree.imp And.left ?_
  rintro ⟨G, H, hs⟩
  exact hs.firstKeys

theorem tree_firstKeys_integers :
    ∃ rs t, runAll (IndexOp.run wideIndex) (splitsAndMerges (10 : Nat))
        (BPlusTree.empty HeaderPage.init 1) = .ok (rs, t) ∧
      runAll (IndexOp.runTested wideIndex) (splitsAndMerges (10 : Nat))
        (BPlusTree.empty HeaderPage.init 1) = .ok (rs, t) ∧ BPlusTree.FirstKeys t := by
  obtain ⟨rs, t, hrun, htested, h⟩ := tree_firstKeys wideIndex Set.univ strictTotalOrderOn_sub
    (by decide) HeaderPage.init (fun _ => by decide) 1 (by decide) (splitsAndMerges 10)
    fun _ _ => Set.mem_univ _
  obtain ⟨rs', t', -, -, hrun', hroot, -⟩ := exists_splitsAndMerges
  cases hrun.symm.trans hrun'
  refine ⟨rs, t, hrun, htested, h.resolve_left fun hempty => ?_⟩
  rw [hroot] at hempty
  cases hempty

end Runs

end ScuDb
