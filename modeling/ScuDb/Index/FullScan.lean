import ScuDb.Index.IndexIterator
import ScuDb.Index.PinsReturned

/-!
Scans of the whole tree.

An iterator from `Begin()` passes all entries in order. Wherever it
stands it has one pin and one latch on its leaf, and nothing else in
hand; at its end, and after its destructor, it has nothing.
-/

namespace ScuDb

open Foundations

variable {K V : Type}

/-- `n` times `operator++`, or until the end. -/
def IndexIterator.advance : Nat → IndexIterator → TreeM K V IndexIterator
  | 0, it => pure it
  | n + 1, it =>
      if it.isEnd = true then pure it
      else do
        let it ← it.next
        it.advance n

/-- The calls from `t` to `t'` have left the thread with one pin and one
latch on the page of an iterator, if it is on one. `others` are the pins
from elsewhere. -/
structure IndexIterator.Holds (others : PageId → Nat) (leafPage : Option PageId)
    (t t' : BPlusTree K V) (u : PoolUse) : Prop where
  replayed : ∃ recent, t'.calls = recent ++ t.calls ∧
    (PoolUse.start others).replay recent = some u
  pins : ∀ y, u.pins y = others y + if leafPage = some y then 1 else 0
  latch : ∀ y, u.latch y = if leafPage = some y then some false else none
  rootLock : u.rootLock = none

theorem IndexIterator.exists_holds {others : PageId → Nat} {leafPage : Option PageId}
    {t t' : BPlusTree K V}
    (h : InHand (.start others) t.calls false others leafPage.toList 0 t'.calls) :
    ∃ u, Holds others leafPage t t' u := by
  obtain ⟨u, hu, hold⟩ := h
  refine ⟨u, hu, fun y => ?_, fun y => ?_, hold.rootLock⟩
  · rw [hold.pins]
    cases leafPage with
    | none => rfl
    | some z => simp [List.count_singleton]
  · rw [hold.latch]
    cases leafPage with
    | none => rfl
    | some z => simp [eq_comm]

namespace BPlusTree

variable {B : Type} [LinearOrder B] [BoundedOrder B] {ω : OrderedIndex K B} {R : Prop}
  {m : K → Option V} {t : BPlusTree K V} {pages : Pages K V} {it : IndexIterator}
  {l : List (K × V)}

/-- After `n` steps `n` entries are behind the iterator. -/
theorem Ahead.wp_advance (h : Ahead pages it l) (ht : t.pages = pages) (n : Nat)
    {Q : IndexIterator → BPlusTree K V → Prop}
    (hQ : ∀ it' calls, Ahead pages it' (l.drop n) →
      (∀ u₀ old extra, InHand u₀ old false extra it.leafPage.toList 0 t.calls →
        InHand u₀ old false extra it'.leafPage.toList 0 calls) →
      Q it' { t with calls := calls }) :
    wp (it.advance n) Q t := by
  induction n generalizing it l t with
  | zero => exact wp_pure.mpr (hQ it t.calls h fun _ _ _ hold => hold)
  | succ n ih =>
      cases l with
      | nil =>
          rw [IndexIterator.advance, if_pos (h.isEnd_iff.mpr rfl)]
          exact wp_pure.mpr (hQ it t.calls h fun _ _ _ hold => hold)
      | cons e l =>
          have hend : it.isEnd ≠ true := by simp [h.isEnd_iff]
          rw [IndexIterator.advance, if_neg hend, wp_bind]
          refine h.wp_next ht fun it' calls h' hcalls => ih h' ht fun it'' calls' h'' hcalls' => ?_
          exact hQ it'' calls' h'' fun u₀ old extra hold =>
            hcalls' u₀ old extra (hcalls u₀ old extra hold)

theorem Ahead.wp_destroy (h : Ahead pages it l) (ht : t.pages = pages)
    {Q : Unit → BPlusTree K V → Prop}
    (hQ : ∀ calls, (∀ u₀ old extra, InHand u₀ old false extra it.leafPage.toList 0 t.calls →
        InHand u₀ old false extra [] 0 calls) → Q () { t with calls := calls }) :
    wp it.destroy Q t := by
  cases h with
  | atEnd => exact wp_pure.mpr (hQ t.calls fun _ _ _ hold => hold)
  | onLeaf _ hy _ hpages _ =>
      obtain ⟨leaf', hleaf', hid, -⟩ := hpages _ List.mem_cons_self
      exact wp_unlockAndUnPin (ht ▸ hleaf') hid hQ

theorem Represents.wp_beginFirst [Inhabited K] (h : Represents ω R m t)
    (hcount : t.rootLockedCnt = 0) {Q : IndexIterator → BPlusTree K V → Prop}
    (hQ : ∀ it l t', Ahead t.pages it l → t'.pages = t.pages →
      SortedWithin ω.rank ω.keys ⊥ ⊤ l → (∀ k v, (k, v) ∈ l ↔ m k = some v) →
      (∀ u₀ old extra, InHand u₀ old false extra [] 0 t.calls →
        InHand u₀ old false extra it.leafPage.toList 0 t'.calls) → Q it t') :
    wp (beginFirst ω.toIndexParams) Q t := by
  rw [beginFirst, wp_bind]
  rcases h.tree with ⟨hempty, hm⟩ | ⟨G, H, hs⟩
  · simp only [findLeafPage, lockRootPageId, wp_bind, wp_modify, wp_getRootPageId]
    rw [if_pos hempty, wp_bind, tryUnlockRootPageId, wp_modify, if_pos (Nat.succ_pos _), wp_pure]
    apply wp_tryUnlockRootPageId_inHand
    intro count calls hcalls
    refine wp_pure.mpr (hQ _ [] _ .atEnd rfl .nil (fun k v => by simp [hm]) ?_)
    intro u₀ old extra hold
    refine (hcalls u₀ old extra ?_).2
    change InHand u₀ old false extra [] t.rootLockedCnt _
    rw [hcount]
    exact hold.lockRoot.unlockRoot
  · refine hs.wp_findLeafPage_reading h.pageSet h.deletedPageSet (b := ⊥) (by simp) ?_
    intro p c leaf count pageSet calls hp hzero hleaf hlo hhi _ hread
    rw [wp_bind]
    apply wp_tryUnlockRootPageId_inHand
    intro count' calls' hcalls
    have hentries := (hs.shape.leafOk hp hleaf).entries
    have hpos : 0 < leaf.array.length := List.length_pos_of_ne_nil (hs.leaf_nonempty hp hleaf)
    obtain ⟨l, hahead, hsorted, hmem⟩ := hs.exists_ahead hp hleaf hpos
    rw [List.drop_zero] at hahead
    have hbot : c.lo = ⊥ := le_bot_iff.mp hlo
    rw [hbot] at hentries
    refine wp_pure.mpr (hQ _ _ _ hahead rfl (hentries.append hsorted bot_le le_top) ?_ ?_)
    · intro k v
      rw [List.mem_append, hmem]
      constructor
      · rintro (hin | ⟨hm, -⟩)
        · have hk := hentries.mem _ hin
          exact (hs.holds_iff hp hleaf (hbot ▸ hk.2.1) hk.2.2).mpr hin
        · exact hm
      · intro hm
        rcases lt_or_ge (ω.rank k) c.hi with hlt | hge
        · exact Or.inl ((hs.holds_iff hp hleaf (hbot ▸ bot_le) hlt).mp hm)
        · exact Or.inr ⟨hm, hge⟩
    · intro u₀ old extra hold
      exact (hcalls u₀ old extra (hread hcount u₀ old extra hold).inHand).2

end BPlusTree

/-- In every tree a run of calls leads to: an iterator from `Begin()`
passes what is stored, once and in order, and holds one pin and one read
latch on the leaf it stands on, until it is at its end or destroyed. -/
theorem full_scan [Inhabited K] [DecidableEq K] [Inhabited V] (params : IndexParams K) (S : Set K)
    (hcmp : StrictTotalOrderOn params.comparator S) (hname : params.indexName.length < 32)
    (header : HeaderPage) (hroom : header.recorded params.indexName = none →
      header.getRecordCount < HeaderPage.capacity)
    (next : PageId) (hnext : 1 ≤ next) (ops : List (IndexOp K V))
    (hkeys : ∀ op ∈ ops, op.key ∈ S) :
    ∃ rs t begun start l,
      runAll (IndexOp.run params) ops (BPlusTree.empty header next) = .ok (rs, t) ∧
      BPlusTree.beginFirst params t = .ok (start, begun) ∧
      l.Pairwise (fun a b => params.comparator a.1 b.1 < 0) ∧
      (∀ k v, (k, v) ∈ l ↔ (specAll IndexOp.spec ops fun _ => none).2 k = some v) ∧
      (∃ t', start.scan (l.length + 1) begun = .ok (l, t')) ∧
      ∀ n, ∃ it t₁ t₂, start.advance n begun = .ok (it, t₁) ∧
        (it.isEnd = true ↔ l.length ≤ n) ∧ (∀ e, l[n]? = some e → it.item t₁ = .ok (e, t₁)) ∧
        it.destroy t₁ = .ok ((), t₂) ∧
        ∀ others, (∃ u, IndexIterator.Holds others it.leafPage t t₁ u) ∧
          ∃ u, IndexIterator.Holds others none t t₂ u := by
  obtain ⟨B, hB, hB', ω, rfl, rfl⟩ := exists_orderedIndex params hcmp hname
  obtain ⟨rs, t, hrun, -, ht⟩ := (IndexOp.refines_atRest ω).run
    (BPlusTree.atRest_empty (V := V) ω hnext hroom)
    (admissible_of_forall (fun op hop _ => hkeys op hop) _)
  have hbegin : wp (BPlusTree.beginFirst ω.toIndexParams) (fun it t' => ∃ l,
      BPlusTree.Ahead t.pages it l ∧ t'.pages = t.pages ∧
      SortedWithin ω.rank ω.keys ⊥ ⊤ l ∧
      (∀ k v, (k, v) ∈ l ↔ (specAll IndexOp.spec ops fun _ => none).2 k = some v) ∧
      ∀ u₀ old extra, InHand u₀ old false extra [] 0 t.calls →
        InHand u₀ old false extra it.leafPage.toList 0 t'.calls) t :=
    ht.represents.wp_beginFirst ht.quiet.unlocked fun it l t' hahead hpages hsorted hmem hhand =>
      ⟨l, hahead, hpages, hsorted, hmem, hhand⟩
  obtain ⟨start, begun, hstart, l, hahead, hpages, hsorted, hmem, hhand⟩ := hbegin
  refine ⟨rs, t, begun, start, l, hrun, hstart, ?_, hmem, ?_, fun n => ?_⟩
  · refine hsorted.sorted.imp_of_mem fun ha hb hab => ?_
    exact (ω.ranked.neg_iff (hsorted.mem _ ha).1 (hsorted.mem _ hb).1).mpr hab
  · obtain ⟨r, t', hscan, rfl⟩ := hahead.wp_scan (Nat.lt_succ_self _) hpages
    exact ⟨t', hscan⟩
  · have hadvance : wp (start.advance n) (fun it t₁ => BPlusTree.Ahead t.pages it (l.drop n) ∧
        t₁.pages = t.pages ∧ ∀ u₀ old extra, InHand u₀ old false extra [] 0 t.calls →
          InHand u₀ old false extra it.leafPage.toList 0 t₁.calls) begun :=
      hahead.wp_advance hpages n fun it calls h hcalls =>
        ⟨h, hpages, fun u₀ old extra hold => hcalls u₀ old extra (hhand u₀ old extra hold)⟩
    obtain ⟨it, t₁, hrun₁, h₁, hpages₁, hhand₁⟩ := hadvance
    have hdestroy : wp it.destroy (fun _ t₂ =>
        ∀ u₀ old extra, InHand u₀ old false extra [] 0 t.calls →
          InHand u₀ old false extra [] 0 t₂.calls) t₁ :=
      h₁.wp_destroy hpages₁ fun calls hcalls u₀ old extra hold =>
        hcalls u₀ old extra (hhand₁ u₀ old extra hold)
    obtain ⟨_, t₂, hrun₂, hhand₂⟩ := hdestroy
    refine ⟨it, t₁, t₂, hrun₁, ?_, fun e he => ?_, hrun₂, fun others => ?_⟩
    · rw [h₁.isEnd_iff, List.drop_eq_nil_iff]
    · have hdrop : l.drop n = e :: l.drop (n + 1) := by
        rw [List.drop_eq_getElem?_toList_append, he]
        rfl
      rw [hdrop] at h₁
      obtain ⟨_, _, hitem, rfl, rfl⟩ :=
        h₁.wp_item hpages₁ (Q := fun r s => r = e ∧ s = t₁) ⟨rfl, rfl⟩
      exact hitem
    · have hbefore : InHand (.start others) t.calls false others [] 0 t.calls :=
        ⟨_, .refl _ _, PoolUse.start_holds _ _⟩
      have hend : InHand (.start others) t.calls false others (none : Option PageId).toList 0
          t₂.calls := hhand₂ _ _ _ hbefore
      exact ⟨IndexIterator.exists_holds (hhand₁ _ _ _ hbefore), IndexIterator.exists_holds hend⟩

theorem full_scan_integers :
    ∃ rs t begun start l,
      runAll (IndexOp.run wideIndex) (splitsAndMerges (10 : Nat))
        (BPlusTree.empty HeaderPage.init 1) = .ok (rs, t) ∧
      BPlusTree.beginFirst wideIndex t = .ok (start, begun) ∧
      l.Pairwise (fun a b => wideIndex.comparator a.1 b.1 < 0) ∧
      (∀ k v, (k, v) ∈ l ↔
        (specAll IndexOp.spec (splitsAndMerges (10 : Nat)) fun _ => none).2 k = some v) ∧
      (∃ t', start.scan (l.length + 1) begun = .ok (l, t')) ∧
      ∀ n, ∃ it t₁ t₂, start.advance n begun = .ok (it, t₁) ∧
        (it.isEnd = true ↔ l.length ≤ n) ∧ (∀ e, l[n]? = some e → it.item t₁ = .ok (e, t₁)) ∧
        it.destroy t₁ = .ok ((), t₂) ∧
        ∀ others, (∃ u, IndexIterator.Holds others it.leafPage t t₁ u) ∧
          ∃ u, IndexIterator.Holds others none t t₂ u :=
  full_scan wideIndex Set.univ strictTotalOrderOn_sub (by decide) HeaderPage.init
    (fun _ => by decide) 1 (by decide) _ fun _ _ => Set.mem_univ _

end ScuDb
