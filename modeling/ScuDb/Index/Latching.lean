import ScuDb.Index.PinBalance
import ScuDb.Index.Standing

/-!
The page set of a writer: what it holds, and how it is released.

On the way down the pages above a safe page are released. `Held` says
that the page set still has every page the operation can get back to,
and `Path` that it has one page of each height at most.
-/

namespace ScuDb

open Foundations

variable {K V B : Type}

namespace BPlusTree

/-! ### Releasing pages -/

section Release

variable {u₀ u : PoolUse} {old : List PoolCall} {exclusive : Bool} {extra : PageId → Nat}
  {t : BPlusTree K V} {ids rest : List PageId}

/-- The loop over the page set: each latch and each pin is given back,
and the pages to be deleted have no pin left but those from elsewhere. -/
theorem wlp_freePages (hu : u₀.Reached old t.calls u)
    (hold : u.Holds exclusive extra (ids ++ rest) t.rootLockedCnt)
    (hnodup : (ids ++ rest).Nodup) :
    wlp (forM ids (freePage exclusive)) (fun _ s => s.rootLockedCnt = t.rootLockedCnt ∧
      ∃ u', u₀.Reached old s.calls u' ∧ u'.Holds exclusive extra rest t.rootLockedCnt ∧
        u.removed ⊆ u'.removed ∧
        ∀ y ∈ ids, y ∈ t.deletedPageSet → extra y = 0 → y ∈ u'.removed) t := by
  induction ids generalizing t u with
  | nil =>
      rw [List.forM_nil, wlp_pure]
      exact ⟨rfl, u, hu, hold, List.Subset.refl _, fun y hy => absurd hy List.not_mem_nil⟩
  | cons id ids ih =>
      obtain ⟨hid, hnodup'⟩ := List.nodup_cons.mp hnodup
      obtain ⟨u₁, hstep₁, hold₁⟩ := hold.unlock hid
      obtain ⟨u₂, hstep₂, hold₂⟩ := hold₁.unpin exclusive
      rw [List.forM_cons, wlp_bind]
      simp only [freePage, wlp_bind, wlp_record, wlp_unpinPage, wlp_get, wlp_ite, wlp_pure,
        deletePage, wlp_modify]
      have hremoved : u.removed ⊆ u₂.removed :=
        List.Subset.trans (PoolUse.removed_subset hstep₁) (PoolUse.removed_subset hstep₂)
      have hu₂ := (hu.next hstep₁).next hstep₂
      refine ⟨fun hmem => ?_, fun hmem => ?_⟩
      · obtain ⟨u₃, hstep₃, hold₃, hgone⟩ := hold₂.deletePage hid
        refine wlp_mono (ih (hu₂.next hstep₃) hold₃ hnodup') ?_
        rintro _ s ⟨hcount, u', hu', hold', hsub, hdel⟩
        have hkeep := List.Subset.trans hremoved (PoolUse.removed_subset hstep₃)
        refine ⟨hcount, u', hu', hold', List.Subset.trans hkeep hsub, ?_⟩
        intro y hy hydel hzero
        rcases List.mem_cons.mp hy with rfl | hy'
        · exact hsub (hgone hzero)
        · refine hdel y hy' ?_ hzero
          have hne : y ≠ id := fun heq => hid (heq ▸ List.mem_append_left rest hy')
          simpa [hne] using hydel
      · refine wlp_mono (ih hu₂ hold₂ hnodup') ?_
        rintro _ s ⟨hcount, u', hu', hold', hsub, hdel⟩
        refine ⟨hcount, u', hu', hold', List.Subset.trans hremoved hsub, fun y hy hydel hzero => ?_⟩
        rcases List.mem_cons.mp hy with rfl | hy'
        · exact absurd hydel hmem
        · exact hdel y hy' hydel hzero

theorem wlp_tryUnlockRootPageId (hu : u₀.Reached old t.calls u)
    (hold : u.Holds exclusive extra ids t.rootLockedCnt) {Q : Unit → BPlusTree K V → Prop}
    (hQ : ∀ u' calls, u₀.Reached old calls u' → u'.Holds exclusive extra ids 0 →
      Q () { t with rootLockedCnt := 0, calls := calls }) :
    wlp (tryUnlockRootPageId exclusive : TreeM K V Unit) Q t := by
  rw [tryUnlockRootPageId, wlp_modify]
  split
  · rename_i hpos
    have hone : t.rootLockedCnt = 1 := Nat.le_antisymm hold.count_le hpos
    rw [hone] at hold
    obtain ⟨u', hstep, hold'⟩ := hold.unlockRoot
    rw [hone]
    exact hQ u' _ (hu.next hstep) hold'
  · rename_i hzero
    have hcount : t.rootLockedCnt = 0 := Nat.eq_zero_of_not_pos hzero
    rw [hcount] at hold
    have hsame : { t with rootLockedCnt := 0, calls := t.calls } = t := by rw [← hcount]
    rw [← hsame]
    exact hQ u t.calls hu hold

/-- The pages of the page set and the root lock are given back; what is
latched besides stays. -/
theorem wlp_freePagesInTransaction {cur : PageId} (hu : u₀.Reached old t.calls u)
    (hold : u.Holds exclusive extra (t.pageSet ++ rest) t.rootLockedCnt)
    (hnodup : (t.pageSet ++ rest).Nodup) :
    wlp (freePagesInTransaction exclusive true cur) (fun _ s => s.pageSet = [] ∧
      s.rootLockedCnt = 0 ∧ ∃ u', u₀.Reached old s.calls u' ∧ u'.Holds exclusive extra rest 0 ∧
        ∀ y ∈ t.pageSet, y ∈ t.deletedPageSet → extra y = 0 → y ∈ u'.removed) t := by
  rw [freePagesInTransaction, wlp_bind]
  refine wlp_tryUnlockRootPageId hu hold fun u₁ calls hu₁ hold₁ => ?_
  simp only [Bool.true_eq_false, if_false, wlp_bind, wlp_get, wlp_require, wlp_modify]
  refine wlp_mono (wlp_freePages (t := { t with rootLockedCnt := 0, calls := calls }) hu₁ hold₁
    hnodup) ?_
  rintro _ s ⟨hcount, u', hu', hold', -, hdel⟩ -
  exact ⟨trivial, hcount, u', hu', hold', hdel⟩

/-- Latching a page on the way down, with or without a release. -/
theorem wlp_crabingProtocalFetchPage {op : OpType} (hop : op ≠ .read) {id previous : PageId}
    (hhand : InHand u₀ old true extra t.pageSet t.rootLockedCnt t.calls)
    (hnodup : t.pageSet.Nodup) (hid : id ∉ t.pageSet) :
    wlp (crabingProtocalFetchPage id op previous true) (fun _ s =>
      InHand u₀ old true extra s.pageSet s.rootLockedCnt s.calls) t := by
  have hexclusive : decide (op ≠ .read) = true := decide_eq_true hop
  obtain ⟨u, hu, hold⟩ := (hhand.fetch id).lock hid
  have hnodup' : (t.pageSet ++ [id]).Nodup := by
    rw [List.nodup_append]
    refine ⟨hnodup, List.nodup_singleton id, fun y hy z hz heq => hid ?_⟩
    rw [← List.mem_singleton.mp hz, ← heq]
    exact hy
  simp only [crabingProtocalFetchPage, wlp_bind, wlp_fetchPage, wlp_record, wlp_readPage,
    hexclusive, Bool.true_eq_false, if_false, if_true]
  intro _ _ page _
  -- whether the pages above are released or not
  have hrest : ∀ release : Bool, wlp (if release = true then
      freePagesInTransaction true true previous else pure ()) (fun _ s =>
        wlp (addIntoPageSet true id : TreeM K V Unit) (fun _ s =>
          InHand u₀ old true extra s.pageSet s.rootLockedCnt s.calls) s)
      { t with calls := .lock true id :: .fetchPage id :: t.calls } := by
    intro release
    rw [wlp_ite]
    refine ⟨fun _ => ?_, fun _ => ?_⟩
    · refine wlp_mono (wlp_freePagesInTransaction (t := { t with
        calls := .lock true id :: .fetchPage id :: t.calls }) hu hold hnodup') ?_
      rintro _ s ⟨hset, hcount, u', hu', hold', -⟩
      rw [wlp_addIntoPageSet rfl]
      refine ⟨u', hu', ?_⟩
      change u'.Holds true extra (s.pageSet ++ [id]) s.rootLockedCnt
      rw [hset, hcount]
      exact hold'
    · rw [wlp_pure, wlp_addIntoPageSet rfl]
      exact ⟨u, hu, hold⟩
  rw [wlp_ite]
  refine ⟨fun _ => ?_, fun _ => ?_⟩
  · exact wlp_ofExcept.mpr fun release _ => hrest release
  · exact wlp_pure.mpr (hrest false)

/-! ### Readers -/

/-- A reader gives back the page `cur`, which it has in its page set if it
has a transaction; what is latched besides stays. -/
theorem wlp_freePagesInTransaction_read {transaction : Bool} {cur : PageId}
    (hu : u₀.Reached old t.calls u) (hold : u.Holds false extra (cur :: rest) t.rootLockedCnt)
    (hnodup : (cur :: rest).Nodup) (hset : t.pageSet = if transaction = true then [cur] else []) :
    wlp (freePagesInTransaction false transaction cur) (fun _ s => s.pageSet = [] ∧
      s.rootLockedCnt = 0 ∧ ∃ u', u₀.Reached old s.calls u' ∧ u'.Holds false extra rest 0) t := by
  cases transaction with
  | true =>
      simp only [if_true] at hset
      have hold' : u.Holds false extra (t.pageSet ++ rest) t.rootLockedCnt := by
        rw [hset]
        exact hold
      refine wlp_mono (wlp_freePagesInTransaction hu hold' (by rw [hset]; exact hnodup)) ?_
      rintro _ s ⟨hset', hcount, u', hu', hholds, -⟩
      exact ⟨hset', hcount, u', hu', hholds⟩
  | false =>
      simp only [Bool.false_eq_true, if_false] at hset
      rw [freePagesInTransaction, wlp_bind]
      refine wlp_tryUnlockRootPageId hu hold fun u₁ calls hu₁ hold₁ => ?_
      simp only [if_true, wlp_bind, wlp_require, wlp_fetchPage, wlp_record, wlp_unpinPage]
      intro _ _ _
      -- the page is fetched once more, so that its pointer is at hand; hence two pins go
      exact ⟨hset, trivial, InHand.unlockAndUnPin ⟨u₁, hu₁, hold₁⟩ (List.nodup_cons.mp hnodup).1⟩

theorem wp_tryUnlockRootPageId_inHand {held : List PageId} {Q : Unit → BPlusTree K V → Prop}
    (hQ : ∀ count calls, (∀ u₀ old extra,
        InHand u₀ old exclusive extra held t.rootLockedCnt t.calls →
        count = 0 ∧ InHand u₀ old exclusive extra held 0 calls) →
      Q () { t with rootLockedCnt := count, calls := calls }) :
    wp (tryUnlockRootPageId exclusive : TreeM K V Unit) Q t := by
  rw [tryUnlockRootPageId, wp_modify]
  split
  · rename_i hpos
    refine hQ _ _ fun u₀ old extra hold => ?_
    have hone : t.rootLockedCnt = 1 := Nat.le_antisymm hold.count_le hpos
    rw [hone] at hold ⊢
    exact ⟨rfl, hold.unlockRoot⟩
  · rename_i hzero
    have hcount : t.rootLockedCnt = 0 := Nat.eq_zero_of_not_pos hzero
    exact hQ _ _ fun u₀ old extra hold => ⟨hcount, by rwa [hcount] at hold⟩

/-- What a reader on the page `p` has in hand. -/
structure Reading (u₀ : PoolUse) (old : List PoolCall) (extra : PageId → Nat)
    (transaction : Bool) (p : PageId) (t : BPlusTree K V) : Prop where
  pageSet : t.pageSet = if transaction = true then [p] else []
  inHand : InHand u₀ old false extra [p] t.rootLockedCnt t.calls

/-- A reader goes to the root, ... -/
theorem wlp_crabingProtocalFetchPage_root {transaction : Bool} {id : PageId}
    (hset : t.pageSet = []) (hold : InHand u₀ old false extra [] t.rootLockedCnt t.calls) :
    wlp (crabingProtocalFetchPage id .read (-1) transaction) (fun _ s =>
      Reading u₀ old extra transaction id s) t := by
  have hprev : ¬(-1 : PageId) > 0 := by decide
  have hlocked := (hold.fetch id).lock List.not_mem_nil
  simp only [crabingProtocalFetchPage, wlp_bind, wlp_fetchPage, wlp_record, wlp_readPage, hprev,
    if_false, wlp_pure, Bool.false_eq_true, ne_eq, not_true_eq_false, decide_false]
  intro _ _ _ _
  cases transaction with
  | true =>
      simp only [if_true]
      rw [wlp_addIntoPageSet rfl]
      refine ⟨?_, hlocked⟩
      change t.pageSet ++ [id] = [id]
      rw [hset, List.nil_append]
  | false =>
      simp only [Bool.false_eq_true, if_false, wlp_pure]
      exact ⟨hset, hlocked⟩

/-- ... and from a page to one below it. -/
theorem wlp_crabingProtocalFetchPage_read {transaction : Bool} {p id : PageId} (hp : 0 < p)
    (hne : id ≠ p) (h : Reading u₀ old extra transaction p t) :
    wlp (crabingProtocalFetchPage id .read p transaction) (fun _ s =>
      Reading u₀ old extra transaction id s) t := by
  have hnot : id ∉ [p] := fun hmem => hne (List.mem_singleton.mp hmem)
  obtain ⟨u, hu, hold⟩ := (h.inHand.fetch id).lock hnot
  have hnodup : (p :: [id]).Nodup :=
    List.nodup_cons.mpr ⟨fun hmem => hne (List.mem_singleton.mp hmem).symm, List.nodup_singleton id⟩
  simp only [crabingProtocalFetchPage, wlp_bind, wlp_fetchPage, wlp_record, wlp_readPage, gt_iff_lt,
    hp, if_true, wlp_pure, ne_eq, not_true_eq_false, decide_false]
  intro _ _ _ _
  refine wlp_mono (wlp_freePagesInTransaction_read (t := { t with
    calls := .lock false id :: .fetchPage id :: t.calls }) hu hold hnodup h.pageSet) ?_
  rintro _ s ⟨hset, hcount, u', hu', hholds⟩
  have hhand : InHand u₀ old false extra [id] s.rootLockedCnt s.calls := by
    rw [hcount]
    exact ⟨u', hu', hholds⟩
  cases transaction with
  | true =>
      simp only [if_true]
      rw [wlp_addIntoPageSet rfl]
      refine ⟨?_, hhand⟩
      change s.pageSet ++ [id] = [id]
      rw [hset, List.nil_append]
  | false =>
      simp only [Bool.false_eq_true, if_false, wlp_pure]
      exact ⟨hset, hhand⟩

end Release

/-! ### What the page set holds -/

/-- The page is in the page set, and so is every page above it that the
operation can get back to. -/
inductive Held (op : OpType) (pages : Pages K V) (G : Cells B) (root : PageId)
    (set : List PageId) : PageId → Prop
  | top (hset : root ∈ set) : Held op pages G root set root
  | safe {y : PageId} {page : TreePage K V} (hset : y ∈ set) (hpage : pages y = some page)
      (hsafe : page.isSafe op = .ok true) : Held op pages G root set y
  | up {y : PageId} {c : Cell B} (hset : y ∈ set) (hy : G y = some c)
      (hparent : Held op pages G root set c.parent) : Held op pages G root set y

namespace Held

variable {op : OpType} {pages pages' : Pages K V} {G G' : Cells B} {root : PageId}
  {set set' : List PageId} {y : PageId} {c : Cell B}

theorem mem (h : Held op pages G root set y) : y ∈ set := by
  cases h with
  | top hset => exact hset
  | safe hset => exact hset
  | up hset => exact hset

theorem subset (h : Held op pages G root set y) (hset : ∀ z ∈ set, z ∈ set') :
    Held op pages G root set' y := by
  induction h with
  | top hmem => exact .top (hset _ hmem)
  | safe hmem hpage hsafe => exact .safe (hset _ hmem) hpage hsafe
  | up hmem hz _ ih => exact .up (hset _ hmem) hz ih

theorem parent (h : Held op pages G root set y) (hy : G y = some c) {page : TreePage K V}
    (hpage : pages y = some page) (hroot : y ≠ root)
    (hnotsafe : page.isSafe op ≠ .ok true) : Held op pages G root set c.parent := by
  cases h with
  | top => exact absurd rfl hroot
  | safe _ hpage' hsafe =>
      cases hpage.symm.trans hpage'
      exact absurd hsafe hnotsafe
  | up _ hz hparent =>
      cases hz.symm.trans hy
      exact hparent

end Held

/-- The pages have one page at most of each height from `n` on. -/
structure OnePerLevel (G : Cells B) (set : List PageId) (n : Nat) : Prop where
  nodup : set.Nodup
  unique : ∀ {y z e f}, y ∈ set → z ∈ set → G y = some e → G z = some f → n ≤ e.height →
    e.height = f.height → y = z

namespace OnePerLevel

variable {G G' : Cells B} {set : List PageId} {n : Nat} {x y : PageId} {c d : Cell B}

theorem join (h : OnePerLevel G set n) (hset : x ∈ set) (hx : G x = some c) (hc : c.height = n)
    (hy : G y = some d) (hd : d.height = n) (hne : y ≠ x) :
    OnePerLevel G (set ++ [y]) (n + 1) where
  nodup := by
    rw [List.nodup_append]
    refine ⟨h.nodup, List.nodup_singleton y, fun z hz w hw heq => hne ?_⟩
    rw [heq, List.mem_singleton.mp hw] at hz
    exact h.unique hz hset hy hx hd.ge (hd.trans hc.symm)
  unique := by
    intro z w e f hz hw he hf hle heq
    have hold : ∀ {v g}, v ∈ set ++ [y] → G v = some g → n + 1 ≤ g.height → v ∈ set := by
      intro v g hv hg hle'
      rcases List.mem_append.mp hv with hv | hv
      · exact hv
      · rw [List.mem_singleton.mp hv] at hg
        cases hy.symm.trans hg
        omega
    exact h.unique (hold hz he hle) (hold hw hf (by omega)) he hf (by omega) heq

/-- Nothing is new from height `n` on. -/
theorem congr (h : OnePerLevel G set n) (hG : ∀ z e, n ≤ e.height → G' z = some e → G z = some e) :
    OnePerLevel G' set n where
  nodup := h.nodup
  unique hz hw he hf hle heq :=
    h.unique hz hw (hG _ _ hle he) (hG _ _ (heq ▸ hle) hf) hle heq

theorem mono {n' : Nat} (h : OnePerLevel G set n) (hn : n ≤ n') : OnePerLevel G set n' where
  nodup := h.nodup
  unique hz hw he hf hle heq := h.unique hz hw he hf (hn.trans hle) heq

end OnePerLevel

/-- A descent has come down to height `n`. -/
structure Path (G : Cells B) (set : List PageId) (n : Nat) : Prop extends
    OnePerLevel G set 0 where
  above : ∀ y ∈ set, ∃ e, G y = some e ∧ n ≤ e.height

namespace Path

variable {G : Cells B} {set : List PageId} {n : Nat} {x : PageId} {c : Cell B}

theorem singleton (hx : G x = some c) : Path G [x] c.height where
  nodup := List.nodup_singleton x
  unique hy hz _ _ _ _ := (List.mem_singleton.mp hy).trans (List.mem_singleton.mp hz).symm
  above y hy := by
    rw [List.mem_singleton.mp hy]
    exact ⟨c, hx, le_rfl⟩

theorem not_mem (h : Path G set n) (hx : G x = some c) (hn : c.height < n) : x ∉ set := by
  intro hmem
  obtain ⟨e, he, hle⟩ := h.above x hmem
  cases hx.symm.trans he
  omega

theorem concat (h : Path G set n) (hx : G x = some c) (hn : c.height < n) :
    Path G (set ++ [x]) c.height where
  nodup := by
    rw [List.nodup_append]
    refine ⟨h.nodup, List.nodup_singleton x, fun y hy z hz heq => ?_⟩
    rw [heq, List.mem_singleton.mp hz] at hy
    exact h.not_mem hx hn hy
  unique := by
    intro y z e f hy hz he hf _ heq
    have hlow : ∀ {w g}, w ∈ set → G w = some g → g.height ≠ c.height := by
      intro w g hw hg heq'
      obtain ⟨g', hg', hle⟩ := h.above w hw
      cases hg.symm.trans hg'
      omega
    rw [List.mem_append, List.mem_singleton] at hy hz
    rcases hy with hy | hy <;> rcases hz with hz | hz
    · exact h.unique hy hz he hf (Nat.zero_le _) heq
    · subst hz
      cases hx.symm.trans hf
      exact absurd heq (hlow hy he)
    · subst hy
      cases hx.symm.trans he
      exact absurd heq.symm (hlow hz hf)
    · exact hy.trans hz.symm
  above y hy := by
    rcases List.mem_append.mp hy with hy | hy
    · obtain ⟨e, he, hle⟩ := h.above y hy
      exact ⟨e, he, hn.le.trans hle⟩
    · rw [List.mem_singleton.mp hy]
      exact ⟨c, hx, le_rfl⟩

end Path

/-! ### The descent of a writer -/

section Descent

variable [LinearOrder B] [BoundedOrder B] {ω : OrderedIndex K B} {op : OpType}

/-- Latching a page of the tree as a reader does. -/
theorem wp_crabingProtocalFetchPage_reading (page : TreePage K V) {t : BPlusTree K V}
    {id previous : PageId} {transaction : Bool} (hpage : t.pages id = some page)
    (hdel : t.deletedPageSet = []) (hprev : previous > 0 → ∃ page, t.pages previous = some page)
    {J : BPlusTree K V → Prop}
    (hJ : wlp (crabingProtocalFetchPage id .read previous transaction) (fun _ s => J s) t)
    {Q : Unit → BPlusTree K V → Prop}
    (hQ : ∀ count pageSet calls, (transaction = false → t.pageSet = [] → pageSet = []) →
      J { t with rootLockedCnt := count, pageSet := pageSet, calls := calls } →
      Q () { t with rootLockedCnt := count, pageSet := pageSet, calls := calls }) :
    wp (crabingProtocalFetchPage id .read previous transaction) Q t := by
  have hwp : wp (crabingProtocalFetchPage id .read previous transaction) (fun _ s =>
      ∃ count pageSet calls, s = { t with
        rootLockedCnt := count, pageSet := pageSet, calls := calls } ∧
        (transaction = false → t.pageSet = [] → pageSet = [])) t :=
    wp_crabingProtocalFetchPage_read page hpage hdel hprev fun count pageSet calls hempty =>
      ⟨count, pageSet, calls, rfl, hempty⟩
  refine wp_mono (wp_and_wlp hwp hJ) ?_
  rintro _ _ ⟨⟨count, pageSet, calls, rfl, hempty⟩, hend⟩
  exact hQ count pageSet calls hempty hend

/-- The search of a reader ends on a leaf, and this is all it has in hand. -/
theorem Standing.wp_findLeafPage_reading {R : Prop} {m : K → Option V} {t : BPlusTree K V}
    {G : Cells B} {H : Nat} (h : Standing ω R m t G H []) (hset : t.pageSet = [])
    (hdel : t.deletedPageSet = []) {key : K} {leftMost transaction : Bool} {b : B}
    (hb : if leftMost then b = ⊥ else key ∈ ω.keys ∧ b = ω.rank key)
    {Q : Option PageId → BPlusTree K V → Prop}
    (hQ : ∀ p c leaf count pageSet calls, G p = some c → c.height = 0 →
      t.pages p = some (.leaf leaf) → c.lo ≤ b → b < c.hi →
      (transaction = false → pageSet = []) →
      (t.rootLockedCnt = 0 → ∀ u₀ old extra, InHand u₀ old false extra [] 0 t.calls →
        Reading u₀ old extra transaction p { t with
          rootLockedCnt := count, pageSet := pageSet, calls := calls }) →
      Q (some p) { t with rootLockedCnt := count, pageSet := pageSet, calls := calls }) :
    wp (findLeafPage ω.toIndexParams key leftMost .read transaction) Q t := by
  refine h.wp_findLeafPage hb (P := fun p count pageSet calls =>
    (transaction = false → pageSet = []) ∧
    (t.rootLockedCnt = 0 → ∀ u₀ old extra, InHand u₀ old false extra [] 0 t.calls →
      Reading u₀ old extra transaction p { t with
        rootLockedCnt := count, pageSet := pageSet, calls := calls })) ?_ ?_ ?_
  · intro page Q hpage hQ
    refine wp_crabingProtocalFetchPage_reading page ?_ ?_ ?_ (J := fun s => t.rootLockedCnt = 0 →
      ∀ u₀ old extra, InHand u₀ old false extra [] 0 t.calls →
        Reading u₀ old extra transaction t.rootPageId s) ?_ ?_
    · exact hpage
    · exact hdel
    · exact fun hpos => absurd hpos (by decide)
    · intro a s hrun hcount u₀ old extra hold
      refine wlp_crabingProtocalFetchPage_root ?_ ?_ a s hrun
      · exact hset
      change InHand u₀ old false extra [] (t.rootLockedCnt + 1) (.lockRoot false :: t.calls)
      rw [hcount]
      exact hold.lockRoot
    · exact fun count pageSet calls hempty hend =>
        hQ count pageSet calls ⟨fun htx => hempty htx hset, hend⟩
  · intro p c q next d count pageSet calls Q hp hq hP hd hparent hheight hQ
    obtain ⟨page, hpage, -⟩ := h.shape.page hd
    have hne : next ≠ p := by
      rintro rfl
      cases hp.symm.trans hd
      omega
    refine wp_crabingProtocalFetchPage_reading page ?_ ?_ ?_ (J := fun s => t.rootLockedCnt = 0 →
      ∀ u₀ old extra, InHand u₀ old false extra [] 0 t.calls →
        Reading u₀ old extra transaction next s) ?_ ?_
    · exact hpage
    · exact hdel
    · exact fun _ => ⟨_, hq⟩
    · intro a s hrun hcount u₀ old extra hold
      exact wlp_crabingProtocalFetchPage_read (h.shape.positive hp) hne
        (hP.2 hcount u₀ old extra hold) a s hrun
    · exact fun count' pageSet' calls' hempty hend =>
        hQ count' pageSet' calls' ⟨fun htx => hempty htx (hP.1 htx), hend⟩
  · intro p c leaf count pageSet calls hp hzero hleaf hlo hhi hP
    exact hQ p c leaf count pageSet calls hp hzero hleaf hlo hhi hP.1 hP.2

/-- A reader on the leaf `p` gives back what it has in hand. -/
theorem wp_freePagesInTransaction_reading (page : TreePage K V) {t : BPlusTree K V} {p : PageId}
    {transaction : Bool} (hpage : t.pages p = some page) (hp : 0 < p)
    (hdel : t.deletedPageSet = []) (hset : transaction = false → t.pageSet = [])
    {Q : Unit → BPlusTree K V → Prop}
    (hQ : ∀ count calls, (∀ u₀ old extra, Reading u₀ old extra transaction p t →
        count = 0 ∧ InHand u₀ old false extra [] 0 calls) →
      Q () { t with rootLockedCnt := count, pageSet := [], calls := calls }) :
    wp (freePagesInTransaction false transaction p) Q t := by
  have hwp : wp (freePagesInTransaction false transaction p) (fun _ s =>
      ∃ count calls, s = { t with rootLockedCnt := count, pageSet := [], calls := calls }) t := by
    refine wp_freePagesInTransaction_read hdel (fun _ => ⟨hp.le, page, hpage⟩) ?_
    intro count pageSet calls hkeep hfree
    have hnil : pageSet = [] := by
      cases transaction with
      | true => exact hfree rfl
      | false => exact hkeep (hset rfl)
    exact ⟨count, calls, by rw [hnil]⟩
  have hwlp : wlp (freePagesInTransaction false transaction p) (fun _ s =>
      ∀ u₀ old extra, Reading u₀ old extra transaction p t →
        s.rootLockedCnt = 0 ∧ InHand u₀ old false extra [] 0 s.calls) t := by
    intro a s hrun u₀ old extra hread
    obtain ⟨u, hu, hold⟩ := hread.inHand
    obtain ⟨-, hcount, u', hu', hold'⟩ :=
      wlp_freePagesInTransaction_read hu hold (List.nodup_singleton p) hread.pageSet a s hrun
    exact ⟨hcount, u', hu', hold'⟩
  refine wp_mono (wp_and_wlp hwp hwlp) ?_
  rintro _ _ ⟨⟨count, calls, rfl⟩, hend⟩
  exact hQ count calls hend

/-- What is done below height `n` leaves the pages from there on held. -/
theorem Held.mono {pages pages' : Pages K V} {G G' : Cells B} {root : PageId} {H : Nat}
    {set set' : List PageId} {y : PageId} {c : Cell B} (h : Held op pages G root set y)
    (shape : Shape ω pages G root H) (hy : G y = some c) {n : Nat} (hn : n ≤ c.height)
    (hsame : ∀ z e, G z = some e → n ≤ e.height → G' z = some e ∧ pages' z = pages z)
    (hset : ∀ z ∈ set, z ∈ set') : Held op pages' G' root set' y := by
  induction h generalizing c with
  | top hmem => exact .top (hset _ hmem)
  | safe hmem hpage hsafe =>
      exact .safe (hset _ hmem) (((hsame _ _ hy hn).2).trans hpage) hsafe
  | @up z e hmem hz hparent ih =>
      cases hz.symm.trans hy
      by_cases hroot : z = root
      · subst hroot
        exact .top (hset _ hmem)
      · obtain ⟨-, d, -, hd, hheight, -⟩ := shape.linked hz hroot
        exact .up (hset _ hmem) (hsame _ _ hz hn).1 (ih hd (by omega))

/-- Latching a page of the tree: the page set afterwards, and what is in
hand with it. -/
theorem wp_crabingProtocalFetchPage_carries (page : TreePage K V) (hop : op ≠ .read)
    {t : BPlusTree K V} {id previous : PageId} (hpage : t.pages id = some page)
    (hdel : t.deletedPageSet = []) (hnodup : t.pageSet.Nodup) (hid : id ∉ t.pageSet)
    {Q : Unit → BPlusTree K V → Prop}
    (hQ : ∀ count pageSet calls, pageSet = t.pageSet ++ [id] ∨
        page.isSafe op = .ok true ∧ pageSet = [id] →
      Carries t { t with rootLockedCnt := count, pageSet := pageSet, calls := calls } →
      Q () { t with rootLockedCnt := count, pageSet := pageSet, calls := calls }) :
    wp (crabingProtocalFetchPage id op previous true) Q t := by
  have hwp : wp (crabingProtocalFetchPage id op previous true) (fun _ s =>
      ∃ count pageSet calls, s = { t with
        rootLockedCnt := count, pageSet := pageSet, calls := calls } ∧
        (pageSet = t.pageSet ++ [id] ∨ page.isSafe op = .ok true ∧ pageSet = [id])) t :=
    wp_crabingProtocalFetchPage_write page hop hpage hdel fun count pageSet calls hset =>
      ⟨count, pageSet, calls, rfl, hset⟩
  have hwlp : wlp (crabingProtocalFetchPage id op previous true)
      (fun _ s => s.pages = t.pages → Carries t s) t := by
    intro a s hrun hpages u₀ old extra hn ht
    exact ⟨hpages ▸ hn, wlp_crabingProtocalFetchPage hop ht hnodup hid a s hrun⟩
  refine wp_mono (wp_and_wlp hwp hwlp) ?_
  rintro _ _ ⟨⟨count, pageSet, calls, rfl, hset⟩, hcarry⟩
  exact hQ count pageSet calls hset (hcarry rfl)

/-- The search of a writer leaves a page set that holds what the operation
needs, one page of each height, and exactly this in hand. -/
theorem Standing.wp_findLeafPage_write {R : Prop} {m : K → Option V} {t : BPlusTree K V}
    {G : Cells B} {H : Nat} (h : Standing ω R m t G H []) (hop : op ≠ .read)
    (hset : t.pageSet = []) (hdel : t.deletedPageSet = []) {key : K} (hkey : key ∈ ω.keys)
    {Q : Option PageId → BPlusTree K V → Prop}
    (hQ : ∀ p c leaf count pageSet calls, G p = some c → c.height = 0 →
      t.pages p = some (.leaf leaf) → c.lo ≤ ω.rank key → ω.rank key < c.hi →
      Held op t.pages G t.rootPageId pageSet p → Path G pageSet 0 →
      (t.rootLockedCnt = 0 → Carries t { t with
        rootLockedCnt := count, pageSet := pageSet, calls := calls }) →
      Q (some p) { t with rootLockedCnt := count, pageSet := pageSet, calls := calls }) :
    wp (findLeafPage ω.toIndexParams key false op true) Q t := by
  have hexclusive : decide (op ≠ .read) = true := decide_eq_true hop
  refine h.wp_findLeafPage (b := ω.rank key) (by simpa using hkey)
    (P := fun p count pageSet calls => Held op t.pages G t.rootPageId pageSet p ∧
      (∀ c, G p = some c → Path G pageSet c.height) ∧
      (t.rootLockedCnt = 0 → Carries t { t with
        rootLockedCnt := count, pageSet := pageSet, calls := calls })) ?_ ?_ ?_
  · intro page Q hpage hQ
    refine wp_crabingProtocalFetchPage_carries page hop ?_ ?_ ?_ ?_ ?_
    · exact hpage
    · exact hdel
    · change t.pageSet.Nodup
      rw [hset]
      exact List.nodup_nil
    · change t.rootPageId ∉ t.pageSet
      rw [hset]
      exact List.not_mem_nil
    · intro count pageSet calls hpageSet hcarry
      have hsingle : pageSet = [t.rootPageId] := by
        rcases hpageSet with heq | ⟨-, heq⟩
        · rw [heq]
          change t.pageSet ++ [t.rootPageId] = _
          rw [hset, List.nil_append]
        · exact heq
      subst hsingle
      refine hQ count _ calls ⟨.top (List.mem_singleton_self _), fun c hc => .singleton hc, ?_⟩
      intro hcount u₀ old extra hn ht
      rw [hcount] at ht
      refine hcarry u₀ old extra hn ?_
      change InHand u₀ old true extra t.pageSet (t.rootLockedCnt + 1)
        (.lockRoot (decide (op ≠ .read)) :: t.calls)
      rw [hcount, hexclusive]
      exact ht.lockRoot
  · intro p c q next d count pageSet calls Q hp hq hP hd hparent hheight hQ
    obtain ⟨hheld, hpath, hcarry⟩ := hP
    obtain ⟨page, hpage, -⟩ := h.shape.page hd
    have hlt : d.height < c.height := by omega
    refine wp_crabingProtocalFetchPage_carries page hop ?_ ?_ ?_ ?_ ?_
    · exact hpage
    · exact hdel
    · exact (hpath c hp).nodup
    · exact (hpath c hp).not_mem hd hlt
    · intro count' pageSet' calls' hpageSet hnext
      refine hQ count' pageSet' calls' ⟨?_, fun e he => ?_, fun hcount =>
        (hcarry hcount).trans hnext⟩
      · rcases hpageSet with rfl | ⟨hsafe, rfl⟩
        · refine .up (List.mem_append_right _ (List.mem_singleton_self _)) hd ?_
          rw [hparent]
          exact hheld.subset fun z hz => List.mem_append_left _ hz
        · exact .safe (List.mem_singleton_self _) hpage hsafe
      · cases hd.symm.trans he
        rcases hpageSet with rfl | ⟨-, rfl⟩
        · exact (hpath c hp).concat hd hlt
        · exact .singleton hd
  · intro p c leaf count pageSet calls hp hzero hleaf hlo hhi hP
    obtain ⟨hheld, hpath, hcarry⟩ := hP
    exact hQ p c leaf count pageSet calls hp hzero hleaf hlo hhi hheld (hzero ▸ hpath c hp) hcarry

end Descent

end BPlusTree

end ScuDb
