import ScuDb.Index.Latching
import ScuDb.Index.Splitting

/-!
What a call leaves behind when it returns.

`Settled` compares the states before and after a call of one thread: the
pins it took are given back, nothing is latched or locked any more, and a
page that is no longer in the tree is out of the buffer pool, unless
somebody else has it pinned.
-/

namespace ScuDb

open Foundations

variable {K V B : Type}

namespace BPlusTree

/-! ### The pages of a tree -/

/-- The page `y` is reached from `x` by going down `n` times. -/
inductive Below (pages : Pages K V) (x : PageId) : Nat → PageId → Prop
  | self : Below pages x 0 x
  | child {n : Nat} {y : PageId} {q : InternalPage K} {e : K × PageId}
      (hy : Below pages x n y) (hq : pages y = some (.internal q)) (he : e ∈ q.array) :
      Below pages x (n + 1) e.2

/-- The page is reached from the root. -/
def InTree (t : BPlusTree K V) (y : PageId) : Prop :=
  t.rootPageId ≠ invalidPageId ∧ ∃ n, Below t.pages t.rootPageId n y

section Shape

variable [LinearOrder B] [BoundedOrder B] {ω : OrderedIndex K B} {pages : Pages K V}
  {G : Cells B} {root : PageId} {H : Nat}

theorem Shape.below (h : Shape ω pages G root H) {n : Nat} {y : PageId}
    (hy : Below pages root n y) : ∃ c, G y = some c ∧ c.height + n = H := by
  induction hy with
  | self => exact ⟨_, h.top, rfl⟩
  | child _ hq he ih =>
      obtain ⟨c, hc, hheight⟩ := ih
      obtain ⟨d, hd, -, hd'⟩ := h.child_cell hc hq (List.mem_map_of_mem he)
      exact ⟨d, hd, by omega⟩

theorem Shape.exists_below (h : Shape ω pages G root H) {n : Nat} {y : PageId} {c : Cell B}
    (hy : G y = some c) (hn : c.height + n = H) : Below pages root n y := by
  induction n generalizing y c with
  | zero =>
      by_cases hroot : y = root
      · exact hroot ▸ .self
      · have hlt := (h.linked hy hroot).1
        omega
  | succ n ih =>
      have hroot : y ≠ root := by
        rintro rfl
        cases h.top.symm.trans hy
        exact absurd hn (by simp)
      obtain ⟨-, d, q, hd, hheight, hq, hspan⟩ := h.linked hy hroot
      obtain ⟨e, he, heq⟩ := exists_mem_of_span hspan
      have hchild := Below.child (ih hd (by omega)) hq he
      rwa [heq] at hchild

theorem Shape.root_ne (h : Shape ω pages G root H) : root ≠ invalidPageId := by
  intro heq
  have hpos := h.positive h.top
  rw [heq] at hpos
  exact absurd hpos (by decide)

variable {t : BPlusTree K V}

theorem Shape.inTree_iff (h : Shape ω t.pages G t.rootPageId H) {y : PageId} :
    InTree t y ↔ G y ≠ none := by
  constructor
  · rintro ⟨-, n, hy⟩
    obtain ⟨c, hc, -⟩ := h.below hy
    simp [hc]
  · intro hy
    obtain ⟨c, hc⟩ := Option.ne_none_iff_exists'.mp hy
    have hle := h.height_le hc
    exact ⟨h.root_ne, H - c.height, h.exists_below hc (by omega)⟩

end Shape

/-! ### Between two calls -/

/-- No lock is held, and the pages know their ids. -/
structure Quiet (t : BPlusTree K V) : Prop where
  unlocked : t.rootLockedCnt = 0
  named : Named t.pages

/-- What a call that led from `t` to `t'` leaves behind. -/
structure Settled (t t' : BPlusTree K V) : Prop where
  quiet : Quiet t'
  ledger : ∀ u₀ old extra, InHand u₀ old true extra [] 0 t.calls →
    ∃ u, u₀.Reached old t'.calls u ∧ u.Holds true extra [] 0 ∧
      ∀ y, InTree t y → ¬InTree t' y → extra y = 0 → y ∈ u.removed

variable {t s t' : BPlusTree K V}

/-- What a call in progress has in hand. -/
theorem Carries.of_quiet (h : t.rootLockedCnt = 0 → Carries t s) (hquiet : Quiet t)
    (hset : t.pageSet = []) : Named s.pages ∧ s.rootLockedCnt ≤ 1 ∧
      ∀ u₀ old extra, InHand u₀ old true extra [] 0 t.calls →
        InHand u₀ old true extra s.pageSet s.rootLockedCnt s.calls := by
  have hcarry : ∀ u₀ old extra, InHand u₀ old true extra [] 0 t.calls → Named s.pages ∧
      InHand u₀ old true extra s.pageSet s.rootLockedCnt s.calls := by
    intro u₀ old extra hold
    refine h hquiet.unlocked u₀ old extra hquiet.named ?_
    rw [hset, hquiet.unlocked]
    exact hold
  have hstart := hcarry (.start fun _ => 0) t.calls (fun _ => 0)
    ⟨_, .refl _ _, PoolUse.start_holds _ _⟩
  exact ⟨hstart.1, hstart.2.count_le, fun u₀ old extra hold => (hcarry u₀ old extra hold).2⟩

theorem Settled.of_carries (h : t.rootLockedCnt = 0 → Carries t t') (hquiet : Quiet t)
    (hset : t.pageSet = []) (hset' : t'.pageSet = []) (hcount : t'.rootLockedCnt = 0)
    (htree : ∀ y, InTree t y → InTree t' y) : Settled t t' := by
  obtain ⟨hnamed, -, hhand⟩ := Carries.of_quiet h hquiet hset
  refine ⟨⟨hcount, hnamed⟩, fun u₀ old extra hold => ?_⟩
  obtain ⟨u, hu, hu'⟩ := hhand u₀ old extra hold
  rw [hset', hcount] at hu'
  exact ⟨u, hu, hu', fun y hy hnot => absurd (htree y hy) hnot⟩

theorem Settled.of_read (hquiet : Quiet t) (hcount : t'.rootLockedCnt = 0)
    (hpages : t'.pages = t.pages) (hroot : t'.rootPageId = t.rootPageId)
    (hhand : ∀ u₀ old extra, InHand u₀ old false extra [] 0 t.calls →
      InHand u₀ old false extra [] 0 t'.calls) : Settled t t' where
  quiet := ⟨hcount, by rw [hpages]; exact hquiet.named⟩
  ledger u₀ old extra hold := by
    obtain ⟨u, hu, hholds⟩ := hhand u₀ old extra (hold.of_nothing false)
    refine ⟨u, hu, hholds.of_nothing true, fun y hy hnot => absurd ?_ hnot⟩
    rw [InTree, hpages, hroot]
    exact hy

/-- What was taken and given back before a call does not count. -/
theorem Settled.after (h : Settled s t')
    (hhand : ∀ u₀ old extra, InHand u₀ old true extra [] 0 t.calls →
      InHand u₀ old true extra [] 0 s.calls)
    (htree : ∀ y, InTree t y → InTree s y) : Settled t t' where
  quiet := h.quiet
  ledger u₀ old extra hold := by
    obtain ⟨u, hu, hholds, hgone⟩ := h.ledger u₀ old extra (hhand u₀ old extra hold)
    exact ⟨u, hu, hholds, fun y hy => hgone y (htree y hy)⟩

theorem wp_tryUnlockRootPageId_carries {Q : Unit → BPlusTree K V → Prop}
    (hQ : ∀ count calls, (t.rootLockedCnt ≤ 1 → count = 0) →
      Carries t { t with rootLockedCnt := count, calls := calls } →
      Q () { t with rootLockedCnt := count, calls := calls }) :
    wp (tryUnlockRootPageId true : TreeM K V Unit) Q t := by
  rw [tryUnlockRootPageId, wp_modify]
  split
  · refine hQ _ _ (fun hle => Nat.sub_eq_zero_of_le hle) fun u₀ old extra hn ht => ⟨hn, ?_⟩
    have hle := ht.count_le
    have hone : t.rootLockedCnt = 1 := by omega
    rw [hone] at ht
    change InHand u₀ old true extra t.pageSet (t.rootLockedCnt - 1) _
    rw [hone]
    exact ht.unlockRoot
  · rename_i hzero
    exact hQ t.rootLockedCnt t.calls (fun _ => Nat.eq_zero_of_not_pos hzero) fun _ _ _ hn ht =>
      ⟨hn, ht⟩

/-- What is left of a tree with the cells `S`: its pages are in the tree
still or gone, and the leaves marked in `A` start above their marks. -/
structure Remains [LinearOrder B] [BoundedOrder B] (S : Cells B) (A : Set (B × PageId))
    (ω : OrderedIndex K B) (R : Prop) (m : K → Option V) (t : BPlusTree K V) : Prop where
  pages : ∀ y, S y ≠ none → InTree t y ∨ t.pages y = none
  marks : A.Nonempty → ∃ (G : Cells B) (H : Nat), Standing ω R m t G H [] ∧
    ∀ b y, (b, y) ∈ A → Above G b y

/-- Releasing the pages takes those that are to be deleted away. -/
theorem Ending.remains [LinearOrder B] [BoundedOrder B] {ω : OrderedIndex K B} {R : Prop}
    {m : K → Option V} {S : Cells B} {A : Set (B × PageId)} (h : Ending S A ω R m s)
    (hpages : t'.pages = dropped s.pages s.deletedPageSet)
    (hrest : ∀ G H, Standing ω R m s G H [] → Standing ω R m t' G H []) :
    (∀ y, S y ≠ none → InTree t' y ∨ y ∈ s.deletedPageSet) ∧ Remains S A ω R m t' := by
  have hgone : ∀ y ∈ s.deletedPageSet, t'.pages y = none := by
    intro y hy
    rw [hpages, dropped, if_pos hy]
  rcases h.tree with ⟨-, -, hS⟩ | ⟨G, H, hs, hS⟩
  · have hall : ∀ y, S y ≠ none → y ∈ s.deletedPageSet := fun y hy =>
      (hS.pages y hy).resolve_left fun hne => hne rfl
    refine ⟨fun y hy => Or.inr (hall y hy), fun y hy => Or.inr (hgone y (hall y hy)), ?_⟩
    rintro ⟨⟨b, y⟩, hy⟩
    obtain ⟨c, hc, -⟩ := hS.marks b y hy
    cases hc
  · have hs' := hrest G H hs
    have hall : ∀ y, S y ≠ none → InTree t' y ∨ y ∈ s.deletedPageSet := fun y hy =>
      (hS.pages y hy).imp_left hs'.shape.inTree_iff.mpr
    exact ⟨hall, fun y hy => (hall y hy).imp_right (hgone y), fun _ => ⟨G, H, hs', hS.marks⟩⟩

/-- The end of a writer: its pages are released, and those that have left
the tree are deleted. -/
theorem wp_release_settled [LinearOrder B] [BoundedOrder B] {ω : OrderedIndex K B} {R : Prop}
    {m : K → Option V} {S : Cells B} {A : Set (B × PageId)} (h : Ending S A ω R m s)
    (hS : ∀ y, InTree t y → S y ≠ none) (hset : t.pageSet = [])
    (hcarry : t.rootLockedCnt = 0 → Carries t s) {Q : Unit → BPlusTree K V → Prop}
    (hQ : ∀ t', Represents ω R m t' → (Quiet t → Settled t t') → Remains S A ω R m t' → Q () t') :
    wp (freePagesInTransaction true true (-1)) Q s := by
  have hrelease : wp (freePagesInTransaction true true (-1)) (fun _ t' =>
      Represents ω R m t' ∧ t'.pages = dropped s.pages s.deletedPageSet ∧
        (∀ y, S y ≠ none → InTree t' y ∨ y ∈ s.deletedPageSet) ∧ Remains S A ω R m t') s :=
    wp_freePagesInTransaction h.deleted fun count calls =>
      ⟨h.finishing.released count calls, rfl,
        h.remains rfl fun G H hs => hs.released count calls⟩
  -- what the call has in hand is given back
  have hledger : wlp (freePagesInTransaction true true (-1)) (fun _ t' =>
      ∀ u₀ old extra, InHand u₀ old true extra s.pageSet s.rootLockedCnt s.calls →
        t'.rootLockedCnt = 0 ∧ ∃ u, u₀.Reached old t'.calls u ∧ u.Holds true extra [] 0 ∧
          ∀ y, y ∈ s.deletedPageSet → extra y = 0 → y ∈ u.removed) s := by
    rintro a t' hrun u₀ old extra ⟨u, hu, hholds⟩
    rw [← List.append_nil s.pageSet] at hholds
    obtain ⟨-, hcount, u', hu', hheld, hgone⟩ :=
      wlp_freePagesInTransaction hu hholds (by simpa using h.nodup) a t' hrun
    exact ⟨hcount, u', hu', hheld, fun y hy => hgone y (h.deleted y hy) hy⟩
  refine wp_mono (wp_and_wlp hrelease hledger) ?_
  rintro _ t' ⟨⟨hrep, hpages, hall, hremains⟩, hcalls⟩
  refine hQ t' hrep (fun hquiet => ?_) hremains
  obtain ⟨hnamed, -, hhand⟩ := Carries.of_quiet hcarry hquiet hset
  have hstart := hhand (.start fun _ => 0) t.calls (fun _ => 0)
    ⟨_, .refl _ _, PoolUse.start_holds _ _⟩
  refine ⟨⟨(hcalls _ _ _ hstart).1, fun id page hpage => ?_⟩, fun u₀ old extra hold => ?_⟩
  · rw [hpages, dropped] at hpage
    split at hpage
    · cases hpage
    · exact hnamed id page hpage
  · obtain ⟨-, u, hu, hholds, hgone⟩ := hcalls u₀ old extra (hhand u₀ old extra hold)
    exact ⟨u, hu, hholds, fun y hy hnot hzero =>
      hgone y ((hall y (hS y hy)).resolve_left hnot) hzero⟩

end BPlusTree

end ScuDb
